import RedstoneOS.Game2048
import RedstoneOS.Library.Packing

namespace RedstoneOS.Merging

open Game2048 Library.LineSweep Library.Packing

variable {x y : Int} {l t : List Int} {a : Tally}

/-- Equal neighbours are paired once, from the wall on. -/
def merge : List Int → List Int
  | x :: y :: l => if x = y then 2 * x :: merge l else x :: merge (y :: l)
  | l => l

def gained : List Int → Int
  | x :: y :: l => if x = y then 2 * x + gained l else gained (y :: l)
  | _ => 0

def tiles (l : List Int) : List Int := l.filter (· ≠ -1)

/-- A line after the move, read from the wall that the tiles move to. -/
def moveLine (l : List Int) : List Int :=
  merge (tiles l) ++ List.replicate (l.length - (merge (tiles l)).length) (-1)

def mergeStep : PairStep Int Tally where
  near x y := if x = y ∧ x ≠ empty then x * 2 else x
  far x y := if x = y ∧ x ≠ empty then empty else y
  count x y a := if x = y ∧ x ≠ empty then ⟨a.score + x * 2, true⟩ else a

def addGain (gain : Int) (changed : Bool) (a : Tally) : Tally :=
  ⟨a.score + gain, a.moved || changed⟩

def mergeCount (l : List Int) : Tally → Tally :=
  addGain (gained (tiles l)) (decide (merge (tiles l) ≠ tiles l))

theorem merge_length_le (l : List Int) : (merge l).length ≤ l.length := by
  induction l using merge.induct with
  | case1 x l ih =>
    simp only [merge, if_true, List.length_cons]
    omega
  | case2 x y l hxy ih =>
    simp only [merge, if_neg hxy, List.length_cons] at ih ⊢
    omega
  | case3 l hl => rw [merge]; exact hl

theorem merge_pair_ne (x : Int) (l : List Int) : merge (x :: x :: l) ≠ x :: x :: l := by
  intro he
  have hlen := congrArg List.length he
  have hle := merge_length_le l
  simp only [merge, if_true, List.length_cons] at hlen
  omega

theorem merge_next (hxy : x ≠ y) (l : List Int) : merge (x :: y :: l) = x :: merge (y :: l) := by
  rw [merge, if_neg hxy]

theorem tiles_tile (hx : x ≠ -1) : tiles (x :: l) = x :: tiles l := by
  simp [tiles, hx]

theorem tiles_hole (l : List Int) : tiles (-1 :: l) = tiles l := by
  simp [tiles]

theorem tiles_ne (l : List Int) : ∀ x ∈ tiles l, x ≠ -1 := by
  intro x hx
  simpa using (List.mem_filter.mp hx).2

theorem scanFrom_empty (l : List Int) (a : Tally) :
    sweepFrom mergeStep (-1) l = -1 :: sweepUp mergeStep l ∧
      countFrom mergeStep (-1) l a = countUp mergeStep l a := by
  cases l with
  | nil => exact ⟨rfl, rfl⟩
  | cons y l => simp [sweepFrom, sweepUp, countFrom, countUp, mergeStep, empty]

theorem scan_hole (l : List Int) (a : Tally) :
    sweepUp mergeStep (-1 :: l) = -1 :: sweepUp mergeStep l ∧
      countUp mergeStep (-1 :: l) a = countUp mergeStep l a := scanFrom_empty l a

theorem scan_pair (hx : x ≠ -1) (l : List Int) (a : Tally) :
    sweepUp mergeStep (x :: x :: l) = x * 2 :: -1 :: sweepUp mergeStep l ∧
      countUp mergeStep (x :: x :: l) a =
        countUp mergeStep l ⟨a.score + x * 2, true⟩ := by
  have hstep : x = x ∧ x ≠ empty := ⟨rfl, hx⟩
  have hnear : mergeStep.near x x = x * 2 := if_pos hstep
  have hfar : mergeStep.far x x = -1 := if_pos hstep
  have hcount : mergeStep.count x x a = ⟨a.score + x * 2, true⟩ := if_pos hstep
  obtain ⟨hline, hrest⟩ := scanFrom_empty l ⟨a.score + x * 2, true⟩
  constructor
  · rw [sweepUp, sweepFrom, hnear, hfar, hline]
  · rw [countUp, countFrom, hfar, hcount, hrest]

theorem scan_next (hxy : x ≠ y) (l : List Int) (a : Tally) :
    sweepUp mergeStep (x :: y :: l) = x :: sweepUp mergeStep (y :: l) ∧
      countUp mergeStep (x :: y :: l) a = countUp mergeStep (y :: l) a := by
  have hstep : ¬ (x = y ∧ x ≠ empty) := fun h => hxy h.1
  simp only [sweepUp, sweepFrom, countUp, countFrom, mergeStep, if_neg hstep, and_self]

theorem scan_holes (n : Nat) (a : Tally) :
    sweepUp mergeStep (List.replicate n (-1)) = List.replicate n (-1) ∧
      countUp mergeStep (List.replicate n (-1)) a = a := by
  induction n with
  | zero => exact ⟨rfl, rfl⟩
  | succ n ih =>
    obtain ⟨hline, hcount⟩ := scan_hole (List.replicate n (-1)) a
    rw [List.replicate_succ, hline, hcount, ih.1, ih.2]
    exact ⟨rfl, rfl⟩

theorem scan_last (hx : x ≠ -1) (n : Nat) (a : Tally) :
    sweepUp mergeStep (x :: List.replicate n (-1)) = x :: List.replicate n (-1) ∧
      countUp mergeStep (x :: List.replicate n (-1)) a = a := by
  cases n with
  | zero => exact ⟨rfl, rfl⟩
  | succ n =>
    obtain ⟨hline, hcount⟩ := scan_next hx (List.replicate n (-1)) a
    have hholes := scan_holes (n + 1) a
    rw [List.replicate_succ] at hholes ⊢
    rw [hline, hcount, hholes.1, hholes.2]
    exact ⟨rfl, rfl⟩

theorem tiles_holes (n : Nat) : tiles (List.replicate n (-1)) = [] := by
  simp [tiles]

/-- The merge scan over a packed line. -/
theorem scan_packed (ht : ∀ x ∈ t, x ≠ -1) (n : Nat) (a : Tally) :
    tiles (sweepUp mergeStep (t ++ List.replicate n (-1))) = merge t ∧
      countUp mergeStep (t ++ List.replicate n (-1)) a =
        addGain (gained t) (decide (merge t ≠ t)) a := by
  induction t using merge.induct generalizing a with
  | case1 x l ih =>
    have hx : x ≠ -1 := ht x List.mem_cons_self
    obtain ⟨hline, hcount⟩ := scan_pair hx (l ++ List.replicate n (-1)) a
    obtain ⟨ihline, ihcount⟩ :=
      ih (fun z hz => ht z (by simp [hz])) ⟨a.score + x * 2, true⟩
    rw [List.cons_append, List.cons_append, hline, hcount, tiles_tile (by omega), tiles_hole,
      ihline, ihcount, merge, if_pos rfl, Int.mul_comm]
    refine ⟨rfl, ?_⟩
    have hpair := merge_pair_ne x l
    rw [merge, if_pos rfl] at hpair
    simp only [addGain, gained, if_true, Bool.true_or, decide_eq_true hpair, Bool.or_true,
      Tally.mk.injEq, and_true]
    omega
  | case2 x y l hxy ih =>
    have hx : x ≠ -1 := ht x List.mem_cons_self
    obtain ⟨hline, hcount⟩ := scan_next hxy (l ++ List.replicate n (-1)) a
    obtain ⟨ihline, ihcount⟩ := ih (fun z hz => ht z (List.mem_cons_of_mem x hz)) a
    rw [List.cons_append] at ihline ihcount
    rw [List.cons_append, List.cons_append, hline, hcount, tiles_tile hx, ihline, ihcount,
      merge_next hxy, gained, if_neg hxy]
    simp only [ne_eq, List.cons.injEq, true_and]
  | case3 l hl =>
    match l, hl with
    | [], _ =>
      obtain ⟨hline, hcount⟩ := scan_holes n a
      rw [List.nil_append, hline, hcount, tiles_holes]
      simp [merge, gained, addGain]
    | [x], _ =>
      have hx : x ≠ -1 := ht x List.mem_cons_self
      obtain ⟨hline, hcount⟩ := scan_last hx n a
      rw [List.singleton_append, hline, hcount, tiles_tile hx, tiles_holes]
      simp [merge, gained, addGain]
    | x :: y :: l, hl => exact (hl x y l rfl).elim

theorem scan_unpaired (ht : ∀ x ∈ t, x ≠ -1) (hmerge : merge t = t) (n : Nat) :
    sweepUp mergeStep (t ++ List.replicate n (-1)) = t ++ List.replicate n (-1) := by
  induction t using merge.induct with
  | case1 x l ih => exact absurd hmerge (merge_pair_ne x l)
  | case2 x y l hxy ih =>
    rw [merge_next hxy, List.cons.injEq] at hmerge
    have ih := ih (fun z hz => ht z (List.mem_cons_of_mem x hz)) hmerge.2
    rw [List.cons_append] at ih
    rw [List.cons_append, List.cons_append, (scan_next hxy _ ⟨0, false⟩).1, ih]
  | case3 l hl =>
    match l, hl with
    | [], _ => exact (scan_holes n ⟨0, false⟩).1
    | [x], _ => exact (scan_last (ht x List.mem_cons_self) n ⟨0, false⟩).1
    | x :: y :: l, hl => exact (hl x y l rfl).elim

theorem pack_eq (l : List Int) :
    pack empty l = tiles l ++ List.replicate (l.length - (tiles l).length) (-1) := rfl

theorem tiles_pack (l : List Int) : tiles (pack empty l) = tiles l := pack_filter empty l

/-- Slide, merge and slide again. -/
theorem moveLine_eq (l : List Int) :
    pack empty (sweepUp mergeStep (pack empty l)) = moveLine l := by
  have hscan := (scan_packed (tiles_ne l) (l.length - (tiles l).length) ⟨0, false⟩).1
  rw [← pack_eq] at hscan
  rw [pack_eq, hscan, sweepUp_length, pack_length, moveLine]

theorem countUp_pack (l : List Int) (a : Tally) :
    countUp mergeStep (pack empty l) a = mergeCount l a := by
  rw [pack_eq, (scan_packed (tiles_ne l) _ a).2, mergeCount]

theorem scan_pack_unpaired (h : merge (tiles l) = tiles l) :
    sweepUp mergeStep (pack empty l) = pack empty l := by
  rw [pack_eq, scan_unpaired (tiles_ne l) h]

theorem tiles_moveLine (l : List Int) : tiles (moveLine l) = merge (tiles l) := by
  rw [← moveLine_eq, tiles_pack, pack_eq, (scan_packed (tiles_ne l) _ ⟨0, false⟩).1]

theorem moveLine_eq_self_iff :
    moveLine l = l ↔ pack empty l = l ∧ merge (tiles l) = tiles l := by
  constructor
  · intro h
    have hmerge : merge (tiles l) = tiles l := by
      rw [← tiles_moveLine, h]
    refine ⟨?_, hmerge⟩
    rw [← h, ← moveLine_eq, pack_pack]
  · rintro ⟨hpack, hmerge⟩
    rw [← moveLine_eq, scan_pack_unpaired hmerge, pack_pack, hpack]

theorem actsBy_swapCell : ActsBy (slideStep empty setMoved) swapCell := by
  intro near far s _
  by_cases hc : s.cells near = empty ∧ s.cells far ≠ empty
  · simp only [swapCell, slideStep, if_pos hc]
  · simp only [swapCell, slideStep, if_neg hc, Function.update_eq_self]

theorem swapCell_eq : swapCell = slideCell := by
  funext near far s
  by_cases hc : s.cells near = empty ∧ s.cells far ≠ empty
  · simp only [swapCell, slideCell, hc.1]
  · simp only [swapCell, slideCell, if_neg hc]

theorem actsBy_slideCell : ActsBy (slideStep empty setMoved) slideCell := by
  rw [← swapCell_eq]
  exact actsBy_swapCell

theorem actsBy_mergeCell : ActsBy mergeStep (fun near far => mergeCell near near far) := by
  intro near far s _
  by_cases hc : s.cells near = s.cells far ∧ s.cells near ≠ empty
  · simp only [mergeCell, mergeStep, if_pos hc]
  · simp only [mergeCell, mergeStep, if_neg hc, Function.update_eq_self]

theorem mergeCell_far (near far : Nat) : mergeCell far near far = mergeCell near near far := by
  funext s
  by_cases he : s.cells near = s.cells far
  · simp only [mergeCell, he]
  · simp only [mergeCell, he, false_and, if_false]

end RedstoneOS.Merging
