import RedstoneOS.Merging
import Mathlib.Algebra.Ring.Int.Defs

namespace RedstoneOS.MoveLines

open Game2048 Merging Library.LineSweep Library.Packing

variable {lines length : Nat} {order : Nat → (Nat → Turn → Turn) → Turn → Turn}
  {tested near far idx : Nat → Nat → Nat} {s : Turn} {g : Game} {l : Nat}

/-- The loops of a move slide and merge along the lines `idx`, each read from the wall that the
tiles move to. -/
structure Follows (lines length : Nat) (order : Nat → (Nat → Turn → Turn) → Turn → Turn)
    (tested near far idx : Nat → Nat → Nat) : Prop where
  slide : ActsOnLines idx lines length (slideLines lines length slideCell near far)
    (pack empty) (packCount empty setMoved)
  merge : ActsOnLines idx lines length (mergeLines lines length order tested near far)
    (sweepUp mergeStep) (countUp mergeStep)

/-- The counter of the loops goes away from the wall. -/
def Away (length : Nat) (near far line : Nat → Nat) : Prop :=
  ∀ k, k < length - 1 → near k = line k ∧ far k = line (k + 1)

def Towards (length : Nat) (near far line : Nat → Nat) : Prop :=
  ∀ k, k < length - 1 →
    near (length - 1 - 1 - k) = line k ∧ far (length - 1 - 1 - k) = line (k + 1)

section Loops

variable {near far line : Nat → Nat}

theorem forUp_away (h : Away length near far line) (cell : Nat → Nat → Turn → Turn) :
    (forUp (length - 1) fun k => cell (near k) (far k)) =
      forUp (length - 1) fun k => cell (line k) (line (k + 1)) :=
  funext fun s => forUp_congr (fun k hk s => by rw [(h k hk).1, (h k hk).2]) s

theorem forUp_towards (h : Towards length near far line) (cell : Nat → Nat → Turn → Turn) :
    (forUp (length - 1) fun k => cell (near k) (far k)) =
      forDown (length - 1) fun k => cell (line k) (line (k + 1)) := by
  funext s
  rw [forUp_reflect]
  exact forDown_congr (fun k hk s => by rw [(h k hk).1, (h k hk).2]) s

theorem forDown_towards (h : Towards length near far line) (cell : Nat → Nat → Turn → Turn) :
    (forDown (length - 1) fun k => cell (near k) (far k)) =
      forUp (length - 1) fun k => cell (line k) (line (k + 1)) := by
  funext s
  rw [forDown_reflect]
  exact forUp_congr (fun k hk s => by rw [(h k hk).1, (h k hk).2]) s

end Loops

theorem follows_away (hidx : Separate idx lines length)
    (hnear : ∀ l, l < lines → Away length (near l) (far l) (idx l)) :
    Follows lines length forUp near near far idx where
  slide := actsOnLines_forUp hidx fun l hl => by
    rw [forUp_away (hnear l hl)]
    exact acts_slideUp actsBy_slideCell (separate_distinct hidx hl) (fun _ => rfl)
  merge := actsOnLines_forUp hidx fun l hl => by
    rw [forUp_away (hnear l hl) fun near far => mergeCell near near far]
    exact acts_up actsBy_mergeCell (separate_distinct hidx hl)

theorem follows_towards (hidx : Separate idx lines length)
    (hnear : ∀ l, l < lines → Towards length (near l) (far l) (idx l)) :
    Follows lines length forDown near near far idx where
  slide := actsOnLines_forUp hidx fun l hl => by
    rw [forUp_towards (hnear l hl)]
    exact acts_slideDown actsBy_slideCell (separate_distinct hidx hl) (fun _ => rfl)
  merge := actsOnLines_forUp hidx fun l hl => by
    rw [forDown_towards (hnear l hl) fun near far => mergeCell near near far]
    exact acts_up actsBy_mergeCell (separate_distinct hidx hl)

theorem mergeLines_far : mergeLines lines length order far near far =
    mergeLines lines length order near near far := by
  simp only [mergeLines, mergeCell_far]

theorem moveLines_far (cell : Nat → Nat → Turn → Turn) (g : Game) :
    moveLines lines length cell order far near far g =
      moveLines lines length cell order near near far g := by
  simp only [moveLines, mergeLines_far]

theorem packCount_eq (line : List Int) :
    packCount empty setMoved line = addGain 0 (decide (pack empty line ≠ line)) := by
  funext a
  by_cases h : pack empty line = line
  · simp [packCount, addGain, h]
  · simp [packCount, addGain, setMoved, h]

theorem forUp_addGain (gain : Nat → Int) (changed : Nat → Bool) (n : Nat) (a : Tally) :
    forUp n (fun l => addGain (gain l) (changed l)) a =
      addGain ((List.range n).map gain).sum ((List.range n).any changed) a := by
  induction n with
  | zero => simp [forUp, addGain]
  | succ n ih =>
    rw [forUp_last, ih, List.range_succ]
    simp [addGain, Bool.or_assoc]
    omega

theorem any_moved (line : Nat → List Int) (n : Nat) :
    ((List.range n).any (fun l => pack empty (line l) ≠ line l) ||
      (List.range n).any fun l => merge (tiles (line l)) ≠ tiles (line l)) =
    (List.range n).any fun l => moveLine (line l) ≠ line l := by
  rw [Bool.eq_iff_iff]
  simp only [Bool.or_eq_true, List.any_eq_true, decide_eq_true_eq, ne_eq, moveLine_eq_self_iff,
    not_and_or, and_or_left, exists_or]

section Move

variable (h : Follows lines length order tested near far idx) (g : Game)

def lineOf (idx : Nat → Nat → Nat) (length : Nat) (g : Game) (l : Nat) : List Int :=
  readLine (idx l) length g.cells

def merged (lines length : Nat) (order : Nat → (Nat → Turn → Turn) → Turn → Turn)
    (tested near far : Nat → Nat → Nat) (g : Game) : Turn :=
  mergeLines lines length order tested near far
    (slideLines lines length slideCell near far ⟨g.cells, g.score, false⟩)

include h in
theorem merged_line (hl : l < lines) :
    readLine (idx l) length (merged lines length order tested near far g).cells =
      sweepUp mergeStep (pack empty (lineOf idx length g l)) := by
  rw [merged, h.merge.line _ l hl, h.slide.line _ l hl, lineOf]

include h in
theorem merged_acc : (merged lines length order tested near far g).acc =
    ⟨g.score + ((List.range lines).map fun l => gained (tiles (lineOf idx length g l))).sum,
      (List.range lines).any fun l => moveLine (lineOf idx length g l) ≠ lineOf idx length g l⟩ := by
  have hslide : ∀ l, l < lines → ∀ a,
      countUp mergeStep (readLine (idx l) length
        (slideLines lines length slideCell near far ⟨g.cells, g.score, false⟩).cells) a =
      mergeCount (lineOf idx length g l) a := by
    intro l hl a
    rw [h.slide.line _ l hl, countUp_pack, lineOf]
  rw [merged, h.merge.acc, h.slide.acc, forUp_congr hslide]
  simp only [packCount_eq, mergeCount, forUp_addGain, ← any_moved]
  have hzero : ((List.range lines).map fun _ => (0 : Int)).sum = 0 := by simp
  simp only [addGain, lineOf, hzero, Int.add_zero, Bool.false_or]
  rfl

include h in
theorem slide_acc (s : Turn) :
    (slideLines lines length slideCell near far s).acc.score = s.acc.score ∧
      (s.acc.moved = true → (slideLines lines length slideCell near far s).acc.moved = true) := by
  have hzero : ((List.range lines).map fun _ => (0 : Int)).sum = 0 := by simp
  rw [h.slide.acc]
  simp only [packCount_eq, forUp_addGain, addGain, hzero, Int.add_zero, true_and]
  intro hmoved
  rw [hmoved, Bool.true_or]

def lineMoved (idx : Nat → Nat → Nat) (lines length : Nat) (g : Game) : Bool :=
  (List.range lines).any fun l => moveLine (lineOf idx length g l) ≠ lineOf idx length g l

include h in
theorem moveLines_eq :
    moveLines lines length slideCell order tested near far g =
      (if lineMoved idx lines length g then 1 else 0,
        { g with
          score := g.score +
            ((List.range lines).map fun l => gained (tiles (lineOf idx length g l))).sum
          cells := if lineMoved idx lines length g
            then (slideLines lines length slideCell near far
              (merged lines length order tested near far g)).cells
            else (merged lines length order tested near far g).cells }) := by
  have hacc := merged_acc h g
  obtain ⟨hscore, hmoved⟩ := slide_acc h (merged lines length order tested near far g)
  have hturn : mergeLines lines length order tested near far
      (slideLines lines length slideCell near far ⟨g.cells, g.score, false⟩) =
      merged lines length order tested near far g := rfl
  rw [← lineMoved] at hacc
  rw [moveLines, hturn]
  cases hm : lineMoved idx lines length g with
  | true =>
    rw [hm] at hacc
    rw [hacc] at hscore hmoved
    simp only [hacc, if_true, hmoved rfl, hscore]
  | false =>
    rw [hm] at hacc
    simp [hacc]

include h in
theorem moveLines_line (hl : l < lines) :
    readLine (idx l) length (moveLines lines length slideCell order tested near far g).2.cells =
      moveLine (lineOf idx length g l) := by
  have hmerged := merged_line h g hl
  rw [moveLines_eq h g]
  cases hm : lineMoved idx lines length g with
  | true =>
    simp only [if_true]
    rw [h.slide.line _ l hl, hmerged, moveLine_eq]
  | false =>
    have hsame : moveLine (lineOf idx length g l) = lineOf idx length g l := by
      have hall := List.any_eq_false.mp hm l (List.mem_range.mpr hl)
      simpa using hall
    obtain ⟨hpack, hpairs⟩ := moveLine_eq_self_iff.mp hsame
    simp only [Bool.false_eq_true, if_false]
    rw [hmerged, scan_pack_unpaired hpairs, hpack, hsame]

include h in
theorem moveLines_rest {j : Nat} (hj : ∀ l, l < lines → ∀ k, k < length → j ≠ idx l k) :
    (moveLines lines length slideCell order tested near far g).2.cells j = g.cells j := by
  have hmerged : (merged lines length order tested near far g).cells j = g.cells j := by
    rw [merged, h.merge.rest _ j hj, h.slide.rest _ j hj]
  rw [moveLines_eq h g]
  cases lineMoved idx lines length g with
  | true =>
    simp only [if_true]
    rw [h.slide.rest _ j hj, hmerged]
  | false => exact hmerged

end Move

end RedstoneOS.MoveLines
