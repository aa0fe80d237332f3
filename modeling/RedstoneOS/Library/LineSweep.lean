import Mathlib.Logic.Function.Iterate

namespace RedstoneOS.Library.LineSweep

variable {σ β α : Type*}

def forUp : Nat → (Nat → σ → σ) → σ → σ
  | 0, _, s => s
  | n + 1, body, s => forUp n (fun i => body (i + 1)) (body 0 s)

def forDown : Nat → (Nat → σ → σ) → σ → σ
  | 0, _, s => s
  | n + 1, body, s => body 0 (forDown n (fun i => body (i + 1)) s)

theorem forUp_last (n : Nat) (body : Nat → σ → σ) (s : σ) :
    forUp (n + 1) body s = body n (forUp n body s) := by
  induction n generalizing body s with
  | zero => rfl
  | succ n ih => exact ih (fun i => body (i + 1)) (body 0 s)

theorem forUp_congr {n : Nat} {body body' : Nat → σ → σ}
    (h : ∀ i, i < n → ∀ s, body i s = body' i s) (s : σ) :
    forUp n body s = forUp n body' s := by
  induction n with
  | zero => rfl
  | succ n ih =>
    rw [forUp_last, forUp_last, ih (fun i hi => h i (by omega)), h n (by omega)]

theorem forDown_congr {n : Nat} {body body' : Nat → σ → σ}
    (h : ∀ i, i < n → ∀ s, body i s = body' i s) (s : σ) :
    forDown n body s = forDown n body' s := by
  induction n generalizing body body' with
  | zero => rfl
  | succ n ih =>
    rw [forDown, forDown, ih (fun i hi => h (i + 1) (by omega)), h 0 (by omega)]

theorem forUp_reflect (n : Nat) (body : Nat → σ → σ) (s : σ) :
    forUp n body s = forDown n (fun i => body (n - 1 - i)) s := by
  induction n with
  | zero => rfl
  | succ n ih =>
    rw [forUp_last, ih, forDown]
    have hrest : forDown n (fun i => body (n - 1 - i)) s =
        forDown n (fun i => body (n + 1 - 1 - (i + 1))) s :=
      forDown_congr (fun i hi s => by rw [show n - 1 - i = n + 1 - 1 - (i + 1) by omega]) s
    rw [hrest]
    rfl

theorem forDown_reflect (n : Nat) (body : Nat → σ → σ) (s : σ) :
    forDown n body s = forUp n (fun i => body (n - 1 - i)) s := by
  rw [forUp_reflect]
  exact forDown_congr (fun i hi s => by rw [show n - 1 - (n - 1 - i) = i by omega]) s

@[ext] structure State (β α : Type*) where
  cells : Nat → β
  acc : α

structure PairStep (β α : Type*) where
  near : β → β → β
  far : β → β → β
  count : β → β → α → α

def ActsBy (p : PairStep β α) (body : Nat → Nat → State β α → State β α) : Prop :=
  ∀ a b s, a ≠ b → body a b s =
    ⟨Function.update (Function.update s.cells a (p.near (s.cells a) (s.cells b)))
      b (p.far (s.cells a) (s.cells b)), p.count (s.cells a) (s.cells b) s.acc⟩

def sweepFrom (p : PairStep β α) : β → List β → List β
  | x, [] => [x]
  | x, y :: l => p.near x y :: sweepFrom p (p.far x y) l

theorem sweepFrom_length (p : PairStep β α) (x : β) (l : List β) :
    (sweepFrom p x l).length = l.length + 1 := by
  induction l generalizing x with
  | nil => rfl
  | cons y l ih => rw [sweepFrom, List.length_cons, ih, List.length_cons]

def countFrom (p : PairStep β α) : β → List β → α → α
  | _, [], a => a
  | x, y :: l, a => countFrom p (p.far x y) l (p.count x y a)

def sweepUp (p : PairStep β α) : List β → List β
  | [] => []
  | x :: l => sweepFrom p x l

theorem sweepUp_length (p : PairStep β α) (l : List β) : (sweepUp p l).length = l.length := by
  cases l with
  | nil => rfl
  | cons x l => exact sweepFrom_length p x l

def countUp (p : PairStep β α) : List β → α → α
  | [], a => a
  | x :: l, a => countFrom p x l a

def sweepDown (p : PairStep β α) : List β → List β
  | [] => []
  | x :: l =>
    match sweepDown p l with
    | [] => [x]
    | y :: r => p.near x y :: p.far x y :: r

theorem sweepDown_length (p : PairStep β α) (l : List β) : (sweepDown p l).length = l.length := by
  induction l with
  | nil => rfl
  | cons x l ih =>
    rw [sweepDown, List.length_cons, ← ih]
    cases sweepDown p l with
    | nil => rfl
    | cons y r => rfl

def countDown (p : PairStep β α) : List β → α → α
  | [], a => a
  | x :: l, a =>
    match sweepDown p l with
    | [] => a
    | y :: _ => p.count x y (countDown p l a)

theorem sweepDown_cons {p : PairStep β α} {x y : β} {l r : List β}
    (hl : sweepDown p l = y :: r) :
    sweepDown p (x :: l) = p.near x y :: p.far x y :: r := by
  rw [sweepDown, hl]

theorem countDown_cons {p : PairStep β α} {x y : β} {l r : List β} {a : α}
    (hl : sweepDown p l = y :: r) :
    countDown p (x :: l) a = p.count x y (countDown p l a) := by
  rw [countDown, hl]

def readLine (idx : Nat → Nat) : Nat → (Nat → β) → List β
  | 0, _ => []
  | n + 1, m => m (idx 0) :: readLine (fun k => idx (k + 1)) n m

theorem readLine_succ (idx : Nat → Nat) (n : Nat) (m : Nat → β) :
    readLine idx (n + 1) m = m (idx 0) :: readLine (fun k => idx (k + 1)) n m := rfl

@[simp] theorem readLine_length (idx : Nat → Nat) (n : Nat) (m : Nat → β) :
    (readLine idx n m).length = n := by
  induction n generalizing idx with
  | zero => rfl
  | succ n ih => rw [readLine, List.length_cons, ih]

theorem readLine_congr {idx idx' : Nat → Nat} {n : Nat} {m m' : Nat → β}
    (h : ∀ k, k < n → m (idx k) = m' (idx' k)) : readLine idx n m = readLine idx' n m' := by
  induction n generalizing idx idx' with
  | zero => rfl
  | succ n ih =>
    rw [readLine, readLine, h 0 (by omega), ih (fun k hk => h (k + 1) (by omega))]

theorem readLine_getD {idx : Nat → Nat} {n k : Nat} (hk : k < n) (m : Nat → β) (d : β) :
    (readLine idx n m).getD k d = m (idx k) := by
  induction n generalizing idx k with
  | zero => omega
  | succ n ih =>
    cases k with
    | zero => rfl
    | succ k =>
      rw [readLine, List.getD_cons_succ]
      exact ih (Nat.lt_of_succ_lt_succ hk)

theorem readLine_getElem {idx : Nat → Nat} {n k : Nat} {m : Nat → β}
    (hk : k < (readLine idx n m).length) : (readLine idx n m)[k] = m (idx k) := by
  have hget : (readLine idx n m).getD k (m 0) = m (idx k) :=
    readLine_getD (by simpa using hk) m (m 0)
  rw [← hget, List.getD_eq_getElem?_getD, List.getElem?_eq_getElem hk, Option.getD_some]

def Distinct (idx : Nat → Nat) (n : Nat) : Prop :=
  ∀ j, j < n → ∀ k, k < n → idx j = idx k → j = k

theorem distinct_tail {idx : Nat → Nat} {n : Nat} (h : Distinct idx (n + 1)) :
    Distinct (fun k => idx (k + 1)) n := by
  intro j hj k hk hjk
  have hsucc := h (j + 1) (by omega) (k + 1) (by omega) hjk
  omega

theorem distinct_first {idx : Nat → Nat} {n k : Nat} (h : Distinct idx (n + 1)) (hk : k < n) :
    idx 0 ≠ idx (k + 1) := by
  intro he
  have hzero := h 0 (by omega) (k + 1) (by omega) he
  omega

/-- A program changes one line of the cells as `f` does, counts as `e` does, and leaves the
other cells. -/
structure Acts (idx : Nat → Nat) (n : Nat) (Q : State β α → State β α)
    (f : List β → List β) (e : List β → α → α) : Prop where
  line : ∀ s, readLine idx n (Q s).cells = f (readLine idx n s.cells)
  acc : ∀ s, (Q s).acc = e (readLine idx n s.cells) s.acc
  rest : ∀ s j, (∀ k, k < n → j ≠ idx k) → (Q s).cells j = s.cells j

section Sweeps

variable {p : PairStep β α} {body : Nat → Nat → State β α → State β α} {idx : Nat → Nat}
  {n a b j : Nat} {s : State β α}

theorem body_other (h : ActsBy p body) (hab : a ≠ b) (ha : j ≠ a) (hb : j ≠ b) :
    (body a b s).cells j = s.cells j := by
  rw [h a b s hab]
  simp [ha, hb]

theorem body_near (h : ActsBy p body) (hab : a ≠ b) :
    (body a b s).cells a = p.near (s.cells a) (s.cells b) := by
  rw [h a b s hab]
  simp [hab]

theorem body_far (h : ActsBy p body) (hab : a ≠ b) :
    (body a b s).cells b = p.far (s.cells a) (s.cells b) := by
  rw [h a b s hab]
  simp

theorem body_acc (h : ActsBy p body) (hab : a ≠ b) :
    (body a b s).acc = p.count (s.cells a) (s.cells b) s.acc := by
  rw [h a b s hab]

theorem body_tail (h : ActsBy p body) (hidx : Distinct idx (n + 2)) :
    readLine (fun k => idx (k + 2)) n (body (idx 0) (idx 1) s).cells =
      readLine (fun k => idx (k + 2)) n s.cells := by
  have hne : idx 0 ≠ idx 1 := distinct_first hidx (by omega)
  refine readLine_congr fun k hk => body_other h hne ?_ ?_
  · exact (distinct_first hidx (k := k + 1) (by omega)).symm
  · exact (distinct_first (distinct_tail hidx) (k := k) (by omega)).symm

theorem up_rest (h : ActsBy p body) (hidx : Distinct idx (n + 1))
    (hj : ∀ k, k < n + 1 → j ≠ idx k) :
    (forUp n (fun k => body (idx k) (idx (k + 1))) s).cells j = s.cells j := by
  induction n generalizing idx s with
  | zero => rfl
  | succ n ih =>
    have hne : idx 0 ≠ idx 1 := distinct_first hidx (by omega)
    rw [forUp]
    exact (ih (distinct_tail hidx) (fun k hk => hj (k + 1) (by omega))).trans
      (body_other h hne (hj 0 (by omega)) (hj 1 (by omega)))

theorem down_rest (h : ActsBy p body) (hidx : Distinct idx (n + 1))
    (hj : ∀ k, k < n + 1 → j ≠ idx k) :
    (forDown n (fun k => body (idx k) (idx (k + 1))) s).cells j = s.cells j := by
  induction n generalizing idx with
  | zero => rfl
  | succ n ih =>
    have hne : idx 0 ≠ idx 1 := distinct_first hidx (by omega)
    rw [forDown]
    exact (body_other h hne (hj 0 (by omega)) (hj 1 (by omega))).trans
      (ih (distinct_tail hidx) (fun k hk => hj (k + 1) (by omega)))

theorem up_line (h : ActsBy p body) (hidx : Distinct idx (n + 1)) :
    readLine idx (n + 1) (forUp n (fun k => body (idx k) (idx (k + 1))) s).cells =
        sweepUp p (readLine idx (n + 1) s.cells) ∧
      (forUp n (fun k => body (idx k) (idx (k + 1))) s).acc =
        countUp p (readLine idx (n + 1) s.cells) s.acc := by
  induction n generalizing idx s with
  | zero => exact ⟨rfl, rfl⟩
  | succ n ih =>
    have hne : idx 0 ≠ idx 1 := distinct_first hidx (by omega)
    have hfirst : (forUp n (fun k => body (idx (k + 1)) (idx (k + 1 + 1)))
        (body (idx 0) (idx 1) s)).cells (idx 0) = p.near (s.cells (idx 0)) (s.cells (idx 1)) :=
      (up_rest h (distinct_tail hidx) fun k hk => distinct_first hidx hk).trans (body_near h hne)
    obtain ⟨hline, hacc⟩ := ih (s := body (idx 0) (idx 1) s) (distinct_tail hidx)
    simp only [readLine, sweepUp, countUp, Nat.zero_add, body_tail h hidx, body_far h hne,
      body_acc h hne] at hline hacc
    constructor
    · simp only [forUp, readLine, sweepUp, sweepFrom, Nat.zero_add, hfirst, hline]
    · simp only [forUp, readLine, countUp, countFrom, Nat.zero_add, hacc]

theorem down_line (h : ActsBy p body) (hidx : Distinct idx (n + 1)) :
    readLine idx (n + 1) (forDown n (fun k => body (idx k) (idx (k + 1))) s).cells =
        sweepDown p (readLine idx (n + 1) s.cells) ∧
      (forDown n (fun k => body (idx k) (idx (k + 1))) s).acc =
        countDown p (readLine idx (n + 1) s.cells) s.acc := by
  induction n generalizing idx with
  | zero => exact ⟨rfl, rfl⟩
  | succ n ih =>
    have hne : idx 0 ≠ idx 1 := distinct_first hidx (by omega)
    obtain ⟨hline, hacc⟩ := ih (distinct_tail hidx)
    have hfirst : (forDown n (fun k => body (idx (k + 1)) (idx (k + 1 + 1))) s).cells (idx 0) =
        s.cells (idx 0) :=
      down_rest h (distinct_tail hidx) fun k hk => distinct_first hidx hk
    rw [forDown, readLine_succ idx (n + 1) s.cells, sweepDown, countDown, ← hline, ← hacc]
    simp only [readLine, Nat.zero_add, body_near h hne, body_far h hne, body_acc h hne,
      body_tail h hidx, hfirst, and_self]

theorem acts_up (h : ActsBy p body) (hidx : Distinct idx n) :
    Acts idx n (forUp (n - 1) (fun k => body (idx k) (idx (k + 1)))) (sweepUp p) (countUp p) := by
  cases n with
  | zero => exact ⟨fun _ => rfl, fun _ => rfl, fun _ _ _ => rfl⟩
  | succ n =>
    exact ⟨fun _ => (up_line h hidx).1, fun _ => (up_line h hidx).2, fun _ _ => up_rest h hidx⟩

theorem acts_down (h : ActsBy p body) (hidx : Distinct idx n) :
    Acts idx n (forDown (n - 1) (fun k => body (idx k) (idx (k + 1)))) (sweepDown p)
      (countDown p) := by
  cases n with
  | zero => exact ⟨fun _ => rfl, fun _ => rfl, fun _ _ _ => rfl⟩
  | succ n =>
    exact ⟨fun _ => (down_line h hidx).1, fun _ => (down_line h hidx).2,
      fun _ _ => down_rest h hidx⟩

end Sweeps

section Lines

variable {f : List β → List β} {e : List β → α → α}

def countPasses (f : List β → List β) (e : List β → α → α) : Nat → List β → α → α
  | 0, _, a => a
  | m + 1, l, a => countPasses f e m (f l) (e l a)

theorem acts_passes {idx : Nat → Nat} {n : Nat} {Q : State β α → State β α}
    (h : Acts idx n Q f e) (m : Nat) :
    Acts idx n (forUp m (fun _ => Q)) f^[m] (countPasses f e m) := by
  induction m with
  | zero => exact ⟨fun _ => rfl, fun _ => rfl, fun _ _ _ => rfl⟩
  | succ m ih =>
    refine ⟨fun s => ?_, fun s => ?_, fun s j hj => ?_⟩
    · rw [forUp, ih.line, h.line, Function.iterate_succ_apply]
    · rw [forUp, ih.acc, h.line, h.acc, countPasses]
    · rw [forUp, ih.rest _ j hj, h.rest s j hj]

def Separate (idx : Nat → Nat → Nat) (L n : Nat) : Prop :=
  ∀ l, l < L → ∀ l', l' < L → ∀ k, k < n → ∀ k', k' < n → idx l k = idx l' k' → l = l' ∧ k = k'

theorem separate_distinct {idx : Nat → Nat → Nat} {L n l : Nat} (h : Separate idx L n)
    (hl : l < L) : Distinct (idx l) n :=
  fun j hj k hk he => (h l hl l hl j hj k hk he).2

structure ActsOnLines (idx : Nat → Nat → Nat) (L n : Nat) (Q : State β α → State β α)
    (f : List β → List β) (e : List β → α → α) : Prop where
  line : ∀ s l, l < L → readLine (idx l) n (Q s).cells = f (readLine (idx l) n s.cells)
  acc : ∀ s, (Q s).acc = forUp L (fun l => e (readLine (idx l) n s.cells)) s.acc
  rest : ∀ s j, (∀ l, l < L → ∀ k, k < n → j ≠ idx l k) → (Q s).cells j = s.cells j

theorem actsOnLines_forUp {idx : Nat → Nat → Nat} {L n : Nat} {Q : Nat → State β α → State β α}
    (hidx : Separate idx L n) (h : ∀ l, l < L → Acts (idx l) n (Q l) f e) :
    ActsOnLines idx L n (forUp L Q) f e := by
  induction L with
  | zero => exact ⟨fun _ _ hl => by omega, fun _ => rfl, fun _ _ _ => rfl⟩
  | succ L ih =>
    have hL := h L (by omega)
    have hprev := ih (fun l hl l' hl' => hidx l (by omega) l' (by omega))
      (fun l hl => h l (by omega))
    -- the last line is as it was before the loop
    have hlast : ∀ s, readLine (idx L) n (forUp L Q s).cells = readLine (idx L) n s.cells := by
      intro s
      refine readLine_congr fun k hk => hprev.rest s _ fun l hl k' hk' he => ?_
      have hlines := (hidx L (by omega) l (by omega) k hk k' hk' he).1
      omega
    refine ⟨fun s l hl => ?_, fun s => ?_, fun s j hj => ?_⟩
    · rw [forUp_last]
      by_cases he : l = L
      · rw [he, hL.line, hlast]
      · have hkept : readLine (idx l) n (Q L (forUp L Q s)).cells =
            readLine (idx l) n (forUp L Q s).cells := by
          refine readLine_congr fun k hk => hL.rest _ _ fun k' hk' hc => ?_
          exact he (hidx l hl L (by omega) k hk k' hk' hc).1
        rw [hkept, hprev.line s l (by omega)]
    · rw [forUp_last, hL.acc, hlast, hprev.acc, forUp_last]
    · rw [forUp_last, hL.rest _ j (fun k hk => hj L (by omega) k hk),
        hprev.rest s j (fun l hl => hj l (by omega))]

end Lines

end RedstoneOS.Library.LineSweep
