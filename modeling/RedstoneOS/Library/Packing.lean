import RedstoneOS.Library.LineSweep
import Mathlib.Data.List.GetD

namespace RedstoneOS.Library.Packing

open LineSweep

variable {β α : Type*} {h x y : β} {mark : α → α} {l : List β} {a : α} {m : Nat}
  {pass : List β → List β}

/-- What the passes over a line with holes have in common, whatever their order. -/
structure SlidePass (h : β) (pass : List β → List β) : Prop where
  nil : pass [] = []
  tile : ∀ x l, x ≠ h → pass (x :: l) = x :: pass l
  append_hole : ∀ l, pass (l ++ [h]) = pass l ++ [h]

theorem iterate_tile (hp : SlidePass h pass) (hx : x ≠ h) (m : Nat) (l : List β) :
    pass^[m] (x :: l) = x :: pass^[m] l := by
  induction m generalizing l with
  | zero => rfl
  | succ m ih => rw [Function.iterate_succ_apply, hp.tile _ _ hx, ih, Function.iterate_succ_apply]

theorem iterate_append_hole (hp : SlidePass h pass) (m : Nat) (l : List β) :
    pass^[m] (l ++ [h]) = pass^[m] l ++ [h] := by
  induction m generalizing l with
  | zero => rfl
  | succ m ih =>
    rw [Function.iterate_succ_apply, hp.append_hole, ih, Function.iterate_succ_apply]

variable [DecidableEq β]

def slideStep (h : β) (mark : α → α) : PairStep β α where
  near x y := if x = h ∧ y ≠ h then y else x
  far x y := if x = h ∧ y ≠ h then x else y
  count x y a := if x = h ∧ y ≠ h then mark a else a

def pack (h : β) (l : List β) : List β :=
  l.filter (· ≠ h) ++ List.replicate (l.length - (l.filter (· ≠ h)).length) h

/-- The mark is set if packing changes the line. -/
def packCount (h : β) (mark : α → α) (l : List β) (a : α) : α :=
  if pack h l = l then a else mark a

@[simp] theorem pack_nil (h : β) : pack h [] = [] := rfl

theorem pack_cons_tile (hx : x ≠ h) : pack h (x :: l) = x :: pack h l := by
  simp [pack, hx]

theorem pack_cons_hole (h : β) (l : List β) : pack h (h :: l) = pack h l ++ [h] := by
  have hle : (l.filter (· ≠ h)).length ≤ l.length := List.length_filter_le _ l
  have hcount : (h :: l).length - (l.filter (· ≠ h)).length =
      l.length - (l.filter (· ≠ h)).length + 1 := by
    simp only [List.length_cons]
    omega
  rw [pack, List.filter_cons_of_neg (by simp), hcount, List.replicate_succ', pack,
    List.append_assoc]

@[simp] theorem pack_length (h : β) (l : List β) : (pack h l).length = l.length := by
  have hle : (l.filter (· ≠ h)).length ≤ l.length := List.length_filter_le _ l
  simp only [pack, List.length_append, List.length_replicate]
  omega

theorem pack_filter (h : β) (l : List β) :
    (pack h l).filter (· ≠ h) = l.filter (· ≠ h) := by
  simp [pack]

theorem pack_pack (h : β) (l : List β) : pack h (pack h l) = pack h l := by
  rw [pack, pack_filter, pack_length, pack]

theorem pack_holes (hl : ∀ x ∈ l, x = h) : pack h l = l := by
  have hnone : l.filter (· ≠ h) = [] := by
    rw [List.filter_eq_nil_iff]
    intro x hx
    simp [hl x hx]
  rw [pack, hnone]
  exact (List.eq_replicate_of_mem hl).symm

theorem pack_short (hl : l.length ≤ 1) : pack h l = l := by
  match l, hl with
  | [], _ => rfl
  | [x], _ =>
    by_cases hx : x = h
    · rw [hx, pack_cons_hole, pack_nil, List.nil_append]
    · rw [pack_cons_tile hx, pack_nil]

theorem packed_hole {k k' : Nat} {d : β} (hl : pack h l = l) (hk : k ≤ k') (hk' : k' < l.length)
    (hhole : l.getD k d = h) : l.getD k' d = h := by
  rw [← hl, pack] at hhole ⊢
  by_cases hlt : k < (l.filter (· ≠ h)).length
  · rw [List.getD_append _ _ _ _ hlt, List.getD_eq_getElem _ _ hlt] at hhole
    have htile := (List.mem_filter.mp (List.getElem_mem hlt)).2
    rw [hhole] at htile
    simp at htile
  · rw [List.getD_append_right _ _ _ _ (by omega), List.getD_replicate]
    omega

theorem sweepFrom_hole (h : β) (mark : α → α) (l : List β) :
    sweepFrom (slideStep h mark) h l = l ++ [h] := by
  induction l with
  | nil => rfl
  | cons y l ih =>
    by_cases hy : y = h
    · simp [sweepFrom, slideStep, hy] at ih ⊢
      exact ih
    · simp [sweepFrom, slideStep, hy] at ih ⊢
      exact ih

theorem sweepUp_tile (hx : x ≠ h) (l : List β) :
    sweepUp (slideStep h mark) (x :: l) = x :: sweepUp (slideStep h mark) l := by
  cases l with
  | nil => rfl
  | cons y l => simp [sweepUp, sweepFrom, slideStep, hx]

theorem sweepUp_hole (h : β) (mark : α → α) (l : List β) :
    sweepUp (slideStep h mark) (h :: l) = l ++ [h] := sweepFrom_hole h mark l

theorem sweepUp_append_hole (h : β) (mark : α → α) (l : List β) :
    sweepUp (slideStep h mark) (l ++ [h]) = sweepUp (slideStep h mark) l ++ [h] := by
  induction l with
  | nil => rfl
  | cons x l ih =>
    by_cases hx : x = h
    · rw [hx, List.cons_append, sweepUp_hole, sweepUp_hole]
    · rw [List.cons_append, sweepUp_tile hx, sweepUp_tile hx, ih, List.cons_append]

theorem sweepDown_tile (hx : x ≠ h) (l : List β) :
    sweepDown (slideStep h mark) (x :: l) = x :: sweepDown (slideStep h mark) l := by
  rw [sweepDown]
  cases sweepDown (slideStep h mark) l with
  | nil => rfl
  | cons y r => simp [slideStep, hx]

theorem sweepDown_append_hole (h : β) (mark : α → α) (l : List β) :
    sweepDown (slideStep h mark) (l ++ [h]) = sweepDown (slideStep h mark) l ++ [h] := by
  induction l with
  | nil => rfl
  | cons x l ih =>
    rw [List.cons_append, sweepDown, sweepDown, ih]
    cases sweepDown (slideStep h mark) l with
    | nil => simp [slideStep]
    | cons y r => rfl

theorem sweepDown_hole {r : List β} (hl : sweepDown (slideStep h mark) l = y :: r) (hy : y ≠ h) :
    sweepDown (slideStep h mark) (h :: l) = y :: h :: r := by
  rw [sweepDown_cons hl]
  simp [slideStep, hy]

theorem slidePass_up (h : β) (mark : α → α) : SlidePass h (sweepUp (slideStep h mark)) :=
  ⟨rfl, fun _ l hx => sweepUp_tile hx l, sweepUp_append_hole h mark⟩

theorem slidePass_down (h : β) (mark : α → α) : SlidePass h (sweepDown (slideStep h mark)) :=
  ⟨rfl, fun _ l hx => sweepDown_tile hx l, sweepDown_append_hole h mark⟩

theorem pass_packed (hp : SlidePass h pass) (l : List β) : pass (pack h l) = pack h l := by
  induction l with
  | nil => exact hp.nil
  | cons x l ih =>
    by_cases hx : x = h
    · rw [hx, pack_cons_hole, hp.append_hole, ih]
    · rw [pack_cons_tile hx, hp.tile _ _ hx, ih]

theorem iterate_sweepUp (h : β) (mark : α → α) (hm : l.length - 1 ≤ m) :
    (sweepUp (slideStep h mark))^[m] l = pack h l := by
  have hp := slidePass_up h mark
  induction l generalizing m with
  | nil => exact Function.iterate_fixed hp.nil m
  | cons x l ih =>
    simp only [List.length_cons, Nat.add_sub_cancel] at hm
    by_cases hx : x = h
    · subst hx
      cases m with
      | zero =>
        have hshort : (x :: l).length ≤ 1 := by
          simp only [List.length_cons]
          omega
        exact (pack_short hshort).symm
      | succ m =>
        rw [Function.iterate_succ_apply, sweepUp_hole, iterate_append_hole hp, ih (by omega),
          pack_cons_hole]
    · rw [iterate_tile hp hx, ih (by omega), pack_cons_tile hx]

theorem pack_sweepDown (h : β) (mark : α → α) (l : List β) :
    pack h (sweepDown (slideStep h mark) l) = pack h l := by
  induction l with
  | nil => rfl
  | cons x l ih =>
    by_cases hx : x = h
    · subst hx
      rw [pack_cons_hole, ← ih]
      cases hl : sweepDown (slideStep x mark) l with
      | nil => rw [sweepDown, hl, pack_cons_hole]
      | cons y r =>
        by_cases hy : y = x
        · rw [sweepDown_cons hl]
          simp [slideStep, hy, pack_cons_hole]
        · rw [sweepDown_hole hl hy, pack_cons_tile hy, pack_cons_tile hy, pack_cons_hole]
          rfl
    · rw [sweepDown_tile hx, pack_cons_tile hx, pack_cons_tile hx, ih]

theorem sweepDown_head (mark : α → α) (hl : ∃ x ∈ l, x ≠ h) :
    ∃ y r, sweepDown (slideStep h mark) l = y :: r ∧ y ≠ h := by
  induction l with
  | nil => simp at hl
  | cons x l ih =>
    by_cases hx : x = h
    · subst hx
      obtain ⟨y, r, hr, hy⟩ := ih (by simpa using hl)
      exact ⟨y, x :: r, sweepDown_hole hr hy, hy⟩
    · exact ⟨x, _, sweepDown_tile hx l, hx⟩

theorem iterate_sweepDown (h : β) (mark : α → α) (hm : l.length - 1 ≤ m) :
    (sweepDown (slideStep h mark))^[m] l = pack h l := by
  have hp := slidePass_down h mark
  induction m generalizing l with
  | zero =>
    have hshort : l.length ≤ 1 := by omega
    exact (pack_short hshort).symm
  | succ m ih =>
    by_cases htile : ∃ x ∈ l, x ≠ h
    · obtain ⟨y, r, hr, hy⟩ := sweepDown_head mark htile
      have hpack : pack h l = pack h (y :: r) := by rw [← hr, pack_sweepDown]
      have hlen : l.length = r.length + 1 := by
        rw [← pack_length h l, hpack, pack_length, List.length_cons]
      rw [Function.iterate_succ_apply, hr, iterate_tile hp hy, ih (by omega), hpack,
        pack_cons_tile hy]
    · have hholes : pack h l = l := pack_holes (by simpa using htile)
      have hfix : sweepDown (slideStep h mark) l = l := by
        rw [← hholes, pass_packed hp]
      rw [Function.iterate_fixed hfix, hholes]

section Counts

theorem countFrom_slide (hmark : ∀ a, mark (mark a) = mark a) (x : β) (l : List β) (a : α) :
    countFrom (slideStep h mark) x l a =
      if sweepFrom (slideStep h mark) x l = x :: l then a else mark a := by
  induction l generalizing x a with
  | nil => simp [countFrom, sweepFrom]
  | cons y l ih =>
    by_cases hxy : x = h ∧ y ≠ h
    · have hne : y ≠ x := fun he => hxy.2 (he.trans hxy.1)
      have hcount : (slideStep h mark).count x y a = mark a := if_pos hxy
      have hnear : (slideStep h mark).near x y = y := if_pos hxy
      rw [countFrom, sweepFrom, ih, hcount, hnear, hmark, ite_self, if_neg (by simp [hne])]
    · have hcount : (slideStep h mark).count x y a = a := if_neg hxy
      have hnear : (slideStep h mark).near x y = x := if_neg hxy
      have hfar : (slideStep h mark).far x y = y := if_neg hxy
      simp only [countFrom, sweepFrom, ih, hcount, hnear, hfar, List.cons.injEq, true_and]

theorem countUp_slide (hmark : ∀ a, mark (mark a) = mark a) (l : List β) (a : α) :
    countUp (slideStep h mark) l a =
      if sweepUp (slideStep h mark) l = l then a else mark a := by
  cases l with
  | nil => rfl
  | cons x l => exact countFrom_slide hmark x l a

theorem countDown_slide (hmark : ∀ a, mark (mark a) = mark a) (l : List β) (a : α) :
    countDown (slideStep h mark) l a =
      if sweepDown (slideStep h mark) l = l then a else mark a := by
  induction l with
  | nil => rfl
  | cons x l ih =>
    cases hl : sweepDown (slideStep h mark) l with
    | nil =>
      have hlen := sweepDown_length (slideStep h mark) l
      rw [hl] at hlen
      rw [List.length_eq_zero_iff.mp hlen.symm]
      simp [countDown, sweepDown]
    | cons y r =>
      rw [countDown_cons hl, sweepDown_cons hl, ih, hl]
      by_cases hxy : x = h ∧ y ≠ h
      · have hne : y ≠ x := fun he => hxy.2 (he.trans hxy.1)
        have hcount : ∀ a, (slideStep h mark).count x y a = mark a := fun _ => if_pos hxy
        have hnear : (slideStep h mark).near x y = y := if_pos hxy
        have hmarked : mark (if y :: r = l then a else mark a) = mark a := by
          split
          · rfl
          · exact hmark a
        rw [hcount, hnear, hmarked, if_neg (by simp [hne])]
      · have hcount : ∀ a, (slideStep h mark).count x y a = a := fun _ => if_neg hxy
        have hnear : (slideStep h mark).near x y = x := if_neg hxy
        have hfar : (slideStep h mark).far x y = y := if_neg hxy
        simp only [hcount, hnear, hfar, List.cons.injEq, true_and]

theorem countPasses_mark {e : List β → α → α} (hmark : ∀ a, mark (mark a) = mark a)
    (he : ∀ l a, e l a = if pass l = l then a else mark a) (m : Nat) (l : List β) (a : α) :
    countPasses pass e m l a = if m = 0 ∨ pass l = l then a else mark a := by
  induction m generalizing l a with
  | zero => simp [countPasses]
  | succ m ih =>
    rw [countPasses, ih, he]
    by_cases hl : pass l = l
    · simp [hl]
    · simp [hl, hmark]

/-- All the passes over a line pack it. -/
theorem acts_pack {idx : Nat → Nat} {n : Nat} {Q : State β α → State β α}
    {e : List β → α → α} (hQ : Acts idx n Q pass e) (hp : SlidePass h pass)
    (hmark : ∀ a, mark (mark a) = mark a)
    (he : ∀ l a, e l a = if pass l = l then a else mark a)
    (hiter : ∀ l m, l.length - 1 ≤ m → pass^[m] l = pack h l) :
    Acts idx n (forUp (n - 1) (fun _ => Q)) (pack h) (packCount h mark) := by
  have hall := acts_passes hQ (n - 1)
  refine ⟨fun s => ?_, fun s => ?_, hall.rest⟩
  · rw [hall.line, hiter _ _ (by simp)]
  · have hpack := hiter (readLine idx n s.cells) (n - 1) (by simp)
    have hfirst : (n - 1 = 0 ∨ pass (readLine idx n s.cells) = readLine idx n s.cells) ↔
        pack h (readLine idx n s.cells) = readLine idx n s.cells := by
      constructor
      · rintro (hzero | hfix)
        · rw [← hpack, hzero]
          rfl
        · rw [← hpack, Function.iterate_fixed hfix]
      · intro hfix
        right
        rw [← hfix, pass_packed hp]
    rw [hall.acc, countPasses_mark hmark he, packCount]
    simp only [hfirst]

end Counts

variable {body : Nat → Nat → State β α → State β α} {idx : Nat → Nat} {n : Nat}

theorem acts_slideUp (hbody : ActsBy (slideStep h mark) body) (hidx : Distinct idx n)
    (hmark : ∀ a, mark (mark a) = mark a) :
    Acts idx n (forUp (n - 1) (fun _ => forUp (n - 1) (fun k => body (idx k) (idx (k + 1)))))
      (pack h) (packCount h mark) :=
  acts_pack (acts_up hbody hidx) (slidePass_up h mark) hmark (countUp_slide hmark)
    (fun _ _ => iterate_sweepUp h mark)

theorem acts_slideDown (hbody : ActsBy (slideStep h mark) body) (hidx : Distinct idx n)
    (hmark : ∀ a, mark (mark a) = mark a) :
    Acts idx n (forUp (n - 1) (fun _ => forDown (n - 1) (fun k => body (idx k) (idx (k + 1)))))
      (pack h) (packCount h mark) :=
  acts_pack (acts_down hbody hidx) (slidePass_down h mark) hmark (countDown_slide hmark)
    (fun _ _ => iterate_sweepDown h mark)

end RedstoneOS.Library.Packing
