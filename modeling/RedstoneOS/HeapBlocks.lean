import RedstoneOS.Library.Runs
import RedstoneOS.Malloc

namespace RedstoneOS.HeapBlocks

open Malloc Library.Extents Library.Runs

structure Block where
  ptr : Nat
  size : Nat
  deriving DecidableEq

def Block.Holds (b : Block) (a : Nat) : Prop := b.ptr ≤ a ∧ a < b.ptr + b.size

def Block.Disjoint (b c : Block) : Prop := ∀ a, b.Holds a → ¬ c.Holds a

structure Heap where
  table : Table
  live : List Block

/-- `other` is anything that happens outside the allocator: it may store to the memory behind
the table. -/
inductive Event
  | malloc (size : Nat)
  | free (ptr : Nat)
  | other (memory : Table)

def step (h : Heap) : Event → Heap
  | .malloc size =>
    match malloc size h.table with
    | .pointer p table => ⟨table, ⟨p, size⟩ :: h.live⟩
    | .null => h
    | .hang => h
  | .free ptr => ⟨free ptr h.table, h.live.filter (fun b => b.ptr ≠ ptr)⟩
  | .other memory => { h with table := fun i => if i < kb4 then h.table i else memory i }

def boot (table : Table) : Heap := ⟨initDynamicMemory table, []⟩

/-- Only live pointers are freed. -/
def Owned (h : Heap) : Event → Prop
  | .free ptr => ∃ b, b ∈ h.live ∧ b.ptr = ptr
  | _ => True

/-- The KB count of the request fits the 8 bits that the table has for it. -/
def Counted (_ : Heap) : Event → Prop
  | .malloc size => size < 255 * kb1
  | _ => True

def blockCell (b : Block) : Nat := cellIndex b.ptr

/-- The extents of the table are exactly the live blocks. -/
structure Kept (h : Heap) : Prop where
  separated : Separated kb4 (extents h.table)
  placed : ∀ b, b ∈ h.live → blockCell b < kb4 ∧ b.ptr = dynamicAddrStart + blockCell b * kb1
  counted : ∀ b, b ∈ h.live → extents h.table (blockCell b) = b.size / kb1 + 1
  distinct : h.live.Pairwise (fun b c => blockCell b ≠ blockCell c)

variable {h : Heap} {size p : Nat} {table : Table}

theorem extents_boot (table : Table) {i : Nat} (hi : i < kb4) :
    extents (initDynamicMemory table) i = 0 := by
  simp only [extents, Function.comp_apply, initDynamicMemory, if_pos hi]
  rfl

theorem kept_boot (table : Table) : Kept (boot table) := by
  refine ⟨separated_of_zero (fun i hi => extents_boot table hi), ?_, ?_, ?_⟩ <;> simp [boot]

theorem Kept.malloc (hk : Kept h) (hs : size < 255 * kb1)
    (hm : malloc size h.table = .pointer p table) : Kept ⟨table, ⟨p, size⟩ :: h.live⟩ := by
  obtain ⟨j, hj, rfl, rfl, hfound⟩ := malloc_pointer hm
  obtain ⟨hb, hroom⟩ := hfound hk.separated
  have hcell : blockCell ⟨dynamicAddrStart + j * kb1, size⟩ = j := cellIndex_ptr hj
  have hcount := toNat_kbSize hs
  -- The cell of the new block is free, so no live block starts there.
  have hfree : ∀ b, b ∈ h.live → blockCell b ≠ j := by
    rintro b hmem rfl
    have hz := hroom 0 (by rw [hcount]; exact Nat.succ_pos _)
    rw [Nat.add_zero, hk.counted b hmem] at hz
    exact Nat.succ_ne_zero _ hz
  refine ⟨?_, ?_, ?_, ?_⟩
  · rw [extents_update]
    exact hk.separated.place hb hroom
  · intro b hmem
    obtain rfl | hmem := List.mem_cons.mp hmem
    · rw [hcell]
      exact ⟨hj, rfl⟩
    · exact hk.placed b hmem
  · intro b hmem
    rw [extents_update]
    obtain rfl | hmem := List.mem_cons.mp hmem
    · rw [hcell, Function.update_self, hcount]
    · rw [Function.update_of_ne (hfree b hmem)]
      exact hk.counted b hmem
  · refine List.pairwise_cons.mpr ⟨fun b hmem => ?_, hk.distinct⟩
    rw [hcell]
    exact (hfree b hmem).symm

theorem Kept.free (hk : Kept h) (hown : ∃ b, b ∈ h.live ∧ b.ptr = p) :
    Kept ⟨free p h.table, h.live.filter (fun b => b.ptr ≠ p)⟩ := by
  obtain ⟨freed, hfreed, rfl⟩ := hown
  have hsub : ∀ b, b ∈ h.live.filter (fun b => b.ptr ≠ freed.ptr) →
      b ∈ h.live ∧ blockCell b ≠ blockCell freed := by
    intro b hmem
    obtain ⟨hlive, hne⟩ := List.mem_filter.mp hmem
    refine ⟨hlive, fun hcell => of_decide_eq_true hne ?_⟩
    rw [(hk.placed b hlive).2, (hk.placed freed hfreed).2, hcell]
  refine ⟨?_, fun b hmem => hk.placed b (hsub b hmem).1, ?_, hk.distinct.filter _⟩
  · rw [Malloc.free, extents_update]
    exact hk.separated.clear _
  · intro b hmem
    obtain ⟨hlive, hne⟩ := hsub b hmem
    rw [Malloc.free, extents_update, ← blockCell, Function.update_of_ne hne]
    exact hk.counted b hlive

theorem extents_other (table memory : Table) {i : Nat} (hi : i < kb4) :
    extents (fun i => if i < kb4 then table i else memory i) i = extents table i := by
  simp only [extents, Function.comp_apply, if_pos hi]

theorem Kept.other (hk : Kept h) (memory : Table) :
    Kept { h with table := fun i => if i < kb4 then h.table i else memory i } := by
  refine ⟨hk.separated.congr fun i => extents_other h.table memory, hk.placed,
    fun b hmem => ?_, hk.distinct⟩
  rw [extents_other _ _ (hk.placed b hmem).1]
  exact hk.counted b hmem

theorem kept_step (h : Heap) (e : Event) (hk : Kept h) (he : Owned h e ∧ Counted h e) :
    Kept (step h e) := by
  cases e with
  | malloc size =>
    rw [step]
    cases hm : malloc size h.table with
    | pointer p table => exact hk.malloc he.2 hm
    | null => exact hk
    | hang => exact hk
  | free p => exact hk.free he.1
  | other memory => exact hk.other memory

theorem Kept.disjoint_of_lt (hk : Kept h) {b c : Block} (hb : b ∈ h.live) (hc : c ∈ h.live)
    (hlt : blockCell b < blockCell c) : b.ptr + b.size ≤ c.ptr := by
  obtain ⟨hcell, hptr⟩ := hk.placed c hc
  have hend := hk.separated _ _ hlt hcell
    (by rw [hk.counted b hb]; exact Nat.succ_ne_zero _)
    (by rw [hk.counted c hc]; exact Nat.succ_ne_zero _)
  rw [hk.counted b hb] at hend
  rw [(hk.placed b hb).2, hptr]
  simp only [kb1] at hend ⊢
  omega

theorem Kept.disjoint (hk : Kept h) : h.live.Pairwise Block.Disjoint := by
  refine hk.distinct.imp_of_mem (fun {b c} hb hc hne a hab hac => ?_)
  simp only [Block.Holds] at hab hac
  obtain hlt | hgt := Nat.lt_or_gt_of_ne hne
  · have := hk.disjoint_of_lt hb hc hlt
    omega
  · have := hk.disjoint_of_lt hc hb hgt
    omega

theorem malloc_boot (table : Table) (size : Nat) :
    malloc size (initDynamicMemory table) = .pointer dynamicAddrStart
      (Function.update (initDynamicMemory table) 0 (kbSize size)) := by
  have hlt := (kbSize size).toNat_lt
  refine malloc_eq (j := 0) (by decide) (mallocLoop_stop (by decide) rfl ?_)
  exact checkSpace_iff.mpr (fun j hj => extents_boot table (by simp only [kb4]; omega))

theorem malloc_after_first (table : Table) (v : UInt8) :
    ∃ table', malloc 1 (Function.update (initDynamicMemory table) 0 v) =
      .pointer (dynamicAddrStart + v.toNat * kb1) table' := by
  by_cases h : v = 0
  · subst h
    have hsame : Function.update (initDynamicMemory table) 0 0 = initDynamicMemory table :=
      Function.update_eq_self 0 _
    rw [hsame, UInt8.toNat_zero, Nat.zero_mul, Nat.add_zero]
    exact ⟨_, malloc_boot table 1⟩
  · have hv := v.toNat_lt
    have hcell : v.toNat < kb4 := by simp only [kb4]; omega
    have hne : v.toNat ≠ 0 := fun hz => h (UInt8.toNat_inj.mp hz)
    have hfree : extents (Function.update (initDynamicMemory table) 0 v) v.toNat = 0 := by
      rw [extents_update, Function.update_of_ne hne]
      exact extents_boot table hcell
    have hfirst : extents (Function.update (initDynamicMemory table) 0 v) 0 = v.toNat := by
      rw [extents_update, Function.update_self]
    refine ⟨_, malloc_eq hcell ?_⟩
    rw [mallocLoop_jump (by decide) (by rwa [Function.update_self]), hfirst, Nat.zero_add]
    refine mallocLoop_stop hcell (extents_eq_zero.mp hfree)
      (checkSpace_iff.mpr (fun j hj => ?_))
    have hone : (kbSize 1).toNat = 1 := rfl
    have hj : j = 0 := by omega
    rw [hj, Nat.add_zero]
    exact hfree

theorem overlap_of_truncated (table : Table) (hs : 255 * kb1 ≤ size) :
    ¬ (run step (boot table) [.malloc size, .malloc 1]).live.Pairwise Block.Disjoint := by
  obtain ⟨table', hnext⟩ := malloc_after_first table (kbSize size)
  have hlive : (run step (boot table) [.malloc size, .malloc 1]).live =
      [⟨dynamicAddrStart + (kbSize size).toNat * kb1, 1⟩, ⟨dynamicAddrStart, size⟩] := by
    simp only [run_cons, run_nil, step, boot, malloc_boot, hnext]
  have hcount : (kbSize size).toNat = (size / kb1 + 1) % 256 := UInt8.toNat_ofNat'
  rw [hlive, List.pairwise_pair]
  intro hd
  refine hd (dynamicAddrStart + (kbSize size).toNat * kb1) ⟨Nat.le_refl _, by simp⟩ ?_
  refine ⟨by simp, ?_⟩
  simp only [kb1] at hs hcount ⊢
  omega

/-- A request of 255KB is recorded as 0KB, and the next request gets the same pointer. -/
theorem malloc_255KB_overlapped :
    ∃ es : List Event, Along step Owned (boot (fun _ => 0)) es ∧
      (run step (boot (fun _ => 0)) es).live = [⟨0x800000, 1⟩, ⟨0x800000, 261120⟩] ∧
      ¬ (run step (boot (fun _ => 0)) es).live.Pairwise Block.Disjoint :=
  ⟨[.malloc 261120, .malloc 1], ⟨trivial, trivial, trivial⟩, rfl, overlap_of_truncated _ (by decide)⟩

/-- While every request fits its count, live blocks never share a byte; and there is no
request that does not fit and keeps its bytes to itself. -/
theorem live_blocks_disjoint (table : Table) :
    (∀ es, Along step Owned (boot table) es → Along step Counted (boot table) es →
      ∀ pre, pre <+: es → (run step (boot table) pre).live.Pairwise Block.Disjoint) ∧
    ∀ size, 255 * kb1 ≤ size →
      ¬ (run step (boot table) [.malloc size, .malloc 1]).live.Pairwise Block.Disjoint := by
  refine ⟨?_, fun size => overlap_of_truncated table⟩
  rintro es hown hcount pre ⟨post, rfl⟩
  rw [along_append] at hown hcount
  exact (run_invariant kept_step (kept_boot table) (along_and.mpr ⟨hown.1, hcount.1⟩)).disjoint

/-- A freed block makes room for a smaller one. -/
theorem live_blocks_disjoint_reused :
    (run step (boot (fun _ => 0))
      [.malloc 2000, .malloc 5000, .free 0x800000, .malloc 100]).live =
        [⟨0x800000, 100⟩, ⟨0x800800, 5000⟩] ∧
      (run step (boot (fun _ => 0))
        [.malloc 2000, .malloc 5000, .free 0x800000, .malloc 100]).live.Pairwise Block.Disjoint := by
  refine ⟨by decide +kernel,
    (live_blocks_disjoint (fun _ => 0)).1 _ ?_ ?_ _ (List.prefix_refl _)⟩
  · exact ⟨trivial, trivial, ⟨⟨0x800000, 2000⟩, by decide +kernel, rfl⟩, trivial, trivial⟩
  · have hfits : ∀ size, size ≤ 5000 → size < 255 * kb1 := fun size h => by
      simp only [kb1]; omega
    exact ⟨hfits 2000 (by omega), hfits 5000 (by omega), trivial, hfits 100 (by omega), trivial⟩

end RedstoneOS.HeapBlocks
