import Mathlib.Data.List.Infix

namespace RedstoneOS.Library.Runs

variable {σ α : Type*} (step : σ → α → σ)

def run (s : σ) (es : List α) : σ := es.foldl step s

/-- Every event of the list meets the condition in the state that it finds. -/
def Along (C : σ → α → Prop) : σ → List α → Prop
  | _, [] => True
  | s, e :: es => C s e ∧ Along C (step s e) es

@[simp] theorem run_nil (s : σ) : run step s [] = s := rfl

@[simp] theorem run_cons (s : σ) (e : α) (es : List α) :
    run step s (e :: es) = run step (step s e) es := rfl

theorem run_append (s : σ) (es fs : List α) :
    run step s (es ++ fs) = run step (run step s es) fs := by
  simp only [run, List.foldl_append]

theorem run_concat (s : σ) (es : List α) (e : α) :
    run step s (es ++ [e]) = step (run step s es) e := by
  rw [run_append, run_cons, run_nil]

variable {step} {C D : σ → α → Prop} {J P : σ → Prop}

@[simp] theorem along_nil (s : σ) : Along step C s [] := trivial

@[simp] theorem along_cons (s : σ) (e : α) (es : List α) :
    Along step C s (e :: es) ↔ C s e ∧ Along step C (step s e) es := Iff.rfl

theorem along_append (s : σ) (es fs : List α) :
    Along step C s (es ++ fs) ↔ Along step C s es ∧ Along step C (run step s es) fs := by
  induction es generalizing s with
  | nil => simp
  | cons e es ih => simp only [List.cons_append, along_cons, ih, run_cons, and_assoc]

theorem along_of_forall (h : ∀ s e, C s e) (s : σ) (es : List α) : Along step C s es := by
  induction es generalizing s with
  | nil => trivial
  | cons e es ih => exact ⟨h s e, ih (step s e)⟩

theorem along_forall {C : α → Prop} {s : σ} {es : List α} :
    Along step (fun _ e => C e) s es ↔ ∀ e ∈ es, C e := by
  induction es generalizing s with
  | nil => simp
  | cons e es ih => simp only [along_cons, ih, List.forall_mem_cons]

theorem along_imp (h : ∀ s e, C s e → D s e) {s : σ} {es : List α}
    (hc : Along step C s es) : Along step D s es := by
  induction es generalizing s with
  | nil => trivial
  | cons e es ih => exact ⟨h s e hc.1, ih hc.2⟩

theorem along_and {s : σ} {es : List α} :
    Along step (fun s e => C s e ∧ D s e) s es ↔ Along step C s es ∧ Along step D s es := by
  induction es generalizing s with
  | nil => simp
  | cons e es ih =>
    simp only [along_cons, ih]
    exact and_and_and_comm

/-- What every admissible step preserves holds at the end of every admissible run. -/
theorem run_invariant (hstep : ∀ s e, J s → C s e → J (step s e)) {s : σ} {es : List α}
    (hs : J s) (hc : Along step C s es) : J (run step s es) := by
  induction es generalizing s with
  | nil => exact hs
  | cons e es ih => exact ih (hstep s e hs hc.1) hc.2

/-- A relation that the admissible steps of two machines keep holds at the end of a run. -/
theorem run_simulates {τ : Type*} {step' : τ → α → τ} {R : σ → τ → Prop}
    (hstep : ∀ s t e, R s t → C s e → R (step s e) (step' t e)) {s : σ} {t : τ} {es : List α}
    (hs : R s t) (hc : Along step C s es) : R (run step s es) (run step' t es) := by
  induction es generalizing s t with
  | nil => exact hs
  | cons e es ih => exact ih (hstep s t e hs hc.1) hc.2

theorem run_always (hstep : ∀ s e, J s → J (step s e)) {s : σ} (hs : J s) (es : List α) :
    J (run step s es) := by
  induction es generalizing s with
  | nil => exact hs
  | cons e es ih => exact ih (hstep s e hs)

/-- What follows at every step from the invariant and the condition holds along the run. -/
theorem along_of_invariant (hstep : ∀ s e, J s → C s e → J (step s e))
    (hd : ∀ s e, J s → C s e → D s e) {s : σ} {es : List α} (hs : J s)
    (hc : Along step C s es) : Along step D s es := by
  induction es generalizing s with
  | nil => trivial
  | cons e es ih => exact ⟨hd s e hs hc.1, ih (hstep s e hs hc.1) hc.2⟩

/-- What holds at the start and after every step holds in all states of the run. -/
theorem states_of_along {s : σ} {es : List α} (hs : P s)
    (h : Along step (fun s e => P (step s e)) s es) :
    ∀ pre, pre <+: es → P (run step s pre) := by
  rintro pre ⟨post, rfl⟩
  rw [along_append] at h
  exact run_invariant (C := fun s e => P (step s e)) (fun _ _ _ hc => hc) hs h.1

/-- A run that breaks the condition breaks it a first time. -/
theorem first_failure {s : σ} {es : List α} (h : ¬ Along step C s es) :
    ∃ pre e post, es = pre ++ e :: post ∧ Along step C s pre ∧ ¬ C (run step s pre) e := by
  induction es generalizing s with
  | nil => exact absurd trivial h
  | cons e es ih =>
    by_cases he : C s e
    · have ht : ¬ Along step C (step s e) es := fun ha => h ⟨he, ha⟩
      obtain ⟨pre, f, post, hes, hpre, hf⟩ := ih ht
      exact ⟨e :: pre, f, post, by rw [hes]; rfl, ⟨he, hpre⟩, hf⟩
    · exact ⟨[], e, es, rfl, trivial, he⟩

/-- The exact condition on runs: the invariant is kept by the steps that meet the
condition, and the observable property is lost at the first step that does not. -/
theorem observed_iff_along
    (hkeep : ∀ s e, J s → D s e → C s e → J (step s e))
    (hobs : ∀ s, J s → P s)
    (hlose : ∀ s e, J s → D s e → ¬ C s e → ¬ P (step s e))
    {s : σ} {es : List α} (hs : J s) (hd : Along step D s es) :
    (∀ pre, pre <+: es → P (run step s pre)) ↔ Along step C s es := by
  have hkeep' : ∀ s e, J s → (D s e ∧ C s e) → J (step s e) :=
    fun s e hj hdc => hkeep s e hj hdc.1 hdc.2
  constructor
  · intro hp
    by_contra hc
    obtain ⟨pre, e, post, hes, hpre, he⟩ := first_failure hc
    rw [hes, along_append, along_cons] at hd
    have hj := run_invariant hkeep' hs (along_and.mpr ⟨hd.1, hpre⟩)
    refine hlose _ e hj hd.2.1 he ?_
    rw [← run_concat step]
    exact hp (pre ++ [e]) ⟨post, by rw [hes]; simp⟩
  · rintro hc pre ⟨post, rfl⟩
    rw [along_append] at hc hd
    exact hobs _ (run_invariant hkeep' hs (along_and.mpr ⟨hd.1, hc.1⟩))

section Rounds

variable {σ τ ρ : Type*}

/-- A loop of at most `n` rounds, each of which may end the loop with a value or not end
itself. -/
def rounds (round : σ → Option (Option ρ × σ)) : Nat → σ → Option (Option ρ × σ)
  | 0, s => some (none, s)
  | n + 1, s =>
    match round s with
    | none => none
    | some (some value, s) => some (some value, s)
    | some (none, s) => rounds round n s

/-- Rounds that do the same on what is seen of the states make loops that do. -/
theorem rounds_refine {round : σ → Option (Option ρ × σ)} {round' : τ → Option (Option ρ × τ)}
    {see : σ → τ} {good : τ → Prop}
    (hround : ∀ s, good (see s) → (round s).map (fun r => (r.1, see r.2)) = round' (see s))
    (hgood : ∀ t value t', good t → round' t = some (value, t') → good t') (n : Nat) {s : σ}
    (h : good (see s)) :
    (rounds round n s).map (fun r => (r.1, see r.2)) = rounds round' n (see s) := by
  induction n generalizing s with
  | zero => rfl
  | succ n ih =>
    have hstep := hround s h
    rw [rounds, rounds, ← hstep]
    cases hr : round s with
    | none => rfl
    | some r =>
      obtain ⟨value, s'⟩ := r
      cases value with
      | some value => rfl
      | none =>
        rw [hr] at hstep
        exact ih (hgood (see s) none (see s') h hstep.symm)

end Rounds

end RedstoneOS.Library.Runs
