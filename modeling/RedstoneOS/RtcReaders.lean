import RedstoneOS.Library.Runs
import Mathlib.Logic.Function.Basic

namespace RedstoneOS.RtcReaders

open Library.Runs

inductive Phase
  | outside
  | waiting
  | leaving
  deriving DecidableEq

/-- `ticked` records that an interrupt of the clock has come since the start of the call. -/
structure Reader where
  phase : Phase
  ticked : Bool
  deriving DecidableEq

structure Machine (ι : Type) where
  busyRtc : Int
  readers : ι → Reader
  running : ι

inductive Event (ι : Type)
  | interrupt
  | schedule (next : ι)
  | advance

variable {ι : Type} [DecidableEq ι]

def rtcHandler (s : Machine ι) : Machine ι :=
  { s with
    busyRtc := if s.busyRtc ≠ 0 then 0 else s.busyRtc
    readers := fun i => { s.readers i with ticked := true } }

def setReader (r : Reader) (s : Machine ι) : Machine ι :=
  { s with readers := Function.update s.readers s.running r }

/-- The steps of `rtc_read` in the running process: set `busy_rtc`, test it, return. -/
def rtcRead (s : Machine ι) : Machine ι :=
  let r := s.readers s.running
  match r.phase with
  | .outside => setReader ⟨.waiting, false⟩ { s with busyRtc := 1 }
  | .waiting => if s.busyRtc ≠ 0 then s else setReader { r with phase := .leaving } s
  | .leaving => setReader { r with phase := .outside } s

def step (s : Machine ι) : Event ι → Machine ι
  | .interrupt => rtcHandler s
  | .schedule next => { s with running := next }
  | .advance => rtcRead s

def Due (s : Machine ι) (i : ι) : Prop :=
  (s.readers i).phase = .waiting ∧ (s.readers i).ticked = true

/-- Only a reader that has seen an interrupt leaves, and one that has seen it leaves at the next
test. -/
structure Prompt (s : Machine ι) : Prop where
  returns : ∀ i, (s.readers i).phase = .leaving → (s.readers i).ticked = true
  leaves : ∀ i, Due s i → ((run step s [.schedule i, .advance]).readers i).phase = .leaving

/-- No process starts to read while another one is due. -/
def StartsAlone (s : Machine ι) : Event ι → Prop
  | .advance => (s.readers s.running).phase = .outside → ∀ i, ¬ Due s i
  | _ => True

variable {s : Machine ι} {e : Event ι} {i : ι}

theorem test_leaves (h : (s.readers i).phase = .waiting) :
    ((run step s [.schedule i, .advance]).readers i).phase = .leaving ↔ s.busyRtc = 0 := by
  simp only [run_cons, run_nil, step, rtcRead, h]
  by_cases hbusy : s.busyRtc = 0
  · simp [hbusy, setReader]
  · simp [hbusy, h]

/-- While the flag is down, every reader in the loop has seen an interrupt. -/
structure Fed (s : Machine ι) : Prop where
  waits : ∀ i, (s.readers i).phase = .waiting → s.busyRtc = 0 → (s.readers i).ticked = true
  returns : ∀ i, (s.readers i).phase = .leaving → (s.readers i).ticked = true

theorem Fed.setReader {r : Reader} (h : Fed s)
    (hwaits : r.phase = .waiting → s.busyRtc = 0 → r.ticked = true)
    (hreturns : r.phase = .leaving → r.ticked = true) : Fed (setReader r s) := by
  refine ⟨fun i hi hbusy => ?_, fun i hi => ?_⟩
  · by_cases hrun : i = s.running
    · subst hrun
      simp only [RtcReaders.setReader, Function.update_self] at hi ⊢
      exact hwaits hi hbusy
    · simp only [RtcReaders.setReader, Function.update_of_ne hrun] at hi ⊢
      exact h.waits i hi hbusy
  · by_cases hrun : i = s.running
    · subst hrun
      simp only [RtcReaders.setReader, Function.update_self] at hi ⊢
      exact hreturns hi
    · simp only [RtcReaders.setReader, Function.update_of_ne hrun] at hi ⊢
      exact h.returns i hi

theorem rtcRead_cases (s : Machine ι) :
    (s.readers s.running).phase = .outside ∧
      rtcRead s = setReader ⟨.waiting, false⟩ { s with busyRtc := 1 } ∨
    rtcRead s = s ∨
    ∃ r, rtcRead s = setReader r s ∧ r.phase ≠ .waiting ∧
      (r.phase = .leaving → (s.readers s.running).phase = .waiting ∧ s.busyRtc = 0 ∧
        r.ticked = (s.readers s.running).ticked) := by
  rw [rtcRead]
  cases hp : (s.readers s.running).phase with
  | outside => exact Or.inl ⟨rfl, rfl⟩
  | waiting =>
    dsimp only
    split
    · exact Or.inr (Or.inl rfl)
    next hbusy => exact Or.inr (Or.inr ⟨_, rfl, by simp, fun _ => ⟨rfl, not_not.mp hbusy, rfl⟩⟩)
  | leaving => exact Or.inr (Or.inr ⟨_, rfl, by simp, by simp⟩)

theorem fed_step (s : Machine ι) (e : Event ι) (h : Fed s) : Fed (step s e) := by
  cases e with
  | interrupt => exact ⟨fun _ _ _ => rfl, fun _ _ => rfl⟩
  | schedule next => exact ⟨h.waits, h.returns⟩
  | advance =>
    rw [step]
    obtain ⟨-, hset⟩ | hsame | ⟨r, hr, hwait, hleave⟩ := rtcRead_cases s
    · have hraised : Fed { s with busyRtc := 1 } :=
        ⟨fun _ _ hbusy => absurd hbusy (by simp), h.returns⟩
      rw [hset]
      exact hraised.setReader (by simp) (by simp)
    · rwa [hsame]
    · rw [hr]
      refine h.setReader (fun hw => absurd hw hwait) fun hl => ?_
      obtain ⟨hphase, hbusy, hticked⟩ := hleave hl
      rw [hticked]
      exact h.waits s.running hphase hbusy

/-- The flag is down whenever a reader is due. -/
def Lowered (s : Machine ι) : Prop := ∀ i, Due s i → s.busyRtc = 0

theorem prompt_of (h : Fed s) (hlow : Lowered s) : Prompt s :=
  ⟨h.returns, fun i hdue => (test_leaves hdue.1).mpr (hlow i hdue)⟩

theorem due_setReader {r : Reader} (h : Due (setReader r s) i) :
    Due s i ∨ r.phase = .waiting ∧ r.ticked = true := by
  by_cases hrun : i = s.running
  · subst hrun
    simp only [Due, setReader, Function.update_self] at h
    exact Or.inr h
  · simp only [Due, setReader, Function.update_of_ne hrun] at h
    exact Or.inl h

theorem lowered_step (s : Machine ι) (e : Event ι) (h : Lowered s) (halone : StartsAlone s e) :
    Lowered (step s e) := by
  cases e with
  | interrupt =>
    intro i _
    simp only [step, rtcHandler]
    split
    · rfl
    next hbusy => exact not_not.mp hbusy
  | schedule next => exact h
  | advance =>
    rw [step]
    obtain ⟨hout, hset⟩ | hsame | ⟨r, hr, hwait, -⟩ := rtcRead_cases s
    · rw [hset]
      intro i hdue
      obtain hdue | ⟨-, hticked⟩ := due_setReader hdue
      · exact absurd hdue (halone hout i)
      · exact absurd hticked (by simp)
    · rwa [hsame]
    · rw [hr]
      intro i hdue
      obtain hdue | ⟨hw, -⟩ := due_setReader hdue
      · exact h i hdue
      · exact absurd hw hwait

theorem missed_step (s : Machine ι) (e : Event ι) (halone : ¬ StartsAlone s e) :
    ¬ Prompt (step s e) := by
  cases e with
  | interrupt => exact absurd trivial halone
  | schedule next => exact absurd trivial halone
  | advance =>
    simp only [StartsAlone, not_forall, not_not] at halone
    obtain ⟨hout, i, hdue⟩ := halone
    have hne : i ≠ s.running := by
      rintro rfl
      rw [hdue.1] at hout
      cases hout
    intro hprompt
    have hset : step s .advance = setReader ⟨.waiting, false⟩ { s with busyRtc := 1 } := by
      simp only [step, rtcRead, hout]
    have hstill : Due (step s .advance) i := by
      simp only [hset, Due, setReader, Function.update_of_ne hne]
      exact hdue
    have hbusy := (test_leaves hstill.1).mp (hprompt.leaves i hstill)
    rw [hset] at hbusy
    exact absurd hbusy (by simp [setReader])

omit [DecidableEq ι] in
theorem fed_start (hout : ∀ i, (s.readers i).phase = .outside) : Fed s := by
  refine ⟨fun i hi => ?_, fun i hi => ?_⟩
  · simp [hout i] at hi
  · simp [hout i] at hi

/-- Whatever the order of the steps, no call returns before an interrupt since its start. -/
theorem returns_after_interrupt (hout : ∀ i, (s.readers i).phase = .outside)
    (es : List (Event ι)) (hleave : ((run step s es).readers i).phase = .leaving) :
    ((run step s es).readers i).ticked = true :=
  (run_always fed_step (fed_start hout) es).returns i hleave

/-- From a start at which no process is in `rtc_read`, no reader misses a tick exactly in the runs
in which no process starts to read while another one is due. -/
theorem prompt_iff_starts_alone (es : List (Event ι))
    (hout : ∀ i, (s.readers i).phase = .outside) :
    (∀ pre, pre <+: es → Prompt (run step s pre)) ↔ Along step StartsAlone s es := by
  refine observed_iff_along (J := fun s => Fed s ∧ Lowered s) (D := fun _ _ => True)
    (fun s e h _ halone => ⟨fed_step s e h.1, lowered_step s e h.2 halone⟩)
    (fun s h => prompt_of h.1 h.2) (fun s e _ _ => missed_step s e) ⟨fed_start hout, ?_⟩
    (along_of_forall (fun _ _ => trivial) s es)
  intro i hdue
  simp [Due, hout i] at hdue

def twoReaders : Machine Bool := ⟨0, fun _ => ⟨.outside, false⟩, false⟩

def inTurn : List (Event Bool) :=
  [.advance, .interrupt, .advance, .schedule true, .advance, .interrupt]

theorem prompt_in_turn : Prompt (run step twoReaders inTurn) := by
  refine (prompt_iff_starts_alone inTurn fun _ => rfl).mpr
    ⟨fun _ i => ?_, trivial, fun hout => absurd hout (by decide), trivial, fun _ i => ?_, trivial,
      trivial⟩ _ (List.prefix_refl _)
  · exact fun hdue => absurd hdue.1 (by simp [twoReaders])
  · cases i <;> exact fun hdue => absurd hdue (by unfold Due; decide)

/-- The second process starts to read between the interrupt and the first one's test, which then
finds the flag set again. -/
theorem tick_missed :
    ¬ ∀ pre, pre <+: [.advance, .interrupt, .schedule true, .advance] →
      Prompt (run step twoReaders pre) := by
  intro h
  have hdue : Due (run step twoReaders [.advance, .interrupt, .schedule true, .advance]) false :=
    ⟨by decide, by decide⟩
  exact absurd ((h _ (List.prefix_refl _)).leaves false hdue) (by decide)

end RedstoneOS.RtcReaders
