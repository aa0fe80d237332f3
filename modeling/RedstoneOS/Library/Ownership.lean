import Mathlib.Data.List.Count

namespace RedstoneOS.Library.Ownership

inductive Access (α : Type)
  | take (b : α)
  | touch (b : α)
  | release (b : α)
  deriving DecidableEq

variable {α : Type} [DecidableEq α]

/-- The blocks that are held after an access, and `none` when it is made to a block that is
not held. -/
def hold (held : List α) : Access α → Option (List α)
  | .take b => some (b :: held)
  | .touch b => if b ∈ held then some held else none
  | .release b => if b ∈ held then some (held.erase b) else none

def holdAll (held : List α) (trace : List (Access α)) : Option (List α) := trace.foldlM hold held

variable {held held' : List α} {b : α} {a : Access α} {pre post trace : List (Access α)}

theorem holdAll_cons : holdAll held (a :: trace) = some held' ↔
    ∃ mid, hold held a = some mid ∧ holdAll mid trace = some held' :=
  Option.bind_eq_some_iff

theorem holdAll_append : holdAll held (pre ++ post) = some held' ↔
    ∃ mid, holdAll held pre = some mid ∧ holdAll mid post = some held' := by
  rw [holdAll, List.foldlM_append]
  exact Option.bind_eq_some_iff

theorem hold_touch : hold held (.touch b) = some held' ↔ b ∈ held ∧ held' = held := by
  rw [hold, Option.ite_none_right_eq_some, Option.some.injEq, eq_comm (a := held)]

theorem hold_release : hold held (.release b) = some held' ↔ b ∈ held ∧ held' = held.erase b := by
  rw [hold, Option.ite_none_right_eq_some, Option.some.injEq, eq_comm (a := held.erase b)]

theorem hold_count (h : hold held a = some held') (b : α) :
    [a].count (.take b) + held.count b = [a].count (.release b) + held'.count b := by
  cases a with
  | take c =>
    obtain rfl := Option.some.inj h
    by_cases hc : c = b
    · subst hc
      simp
      omega
    · simp [hc]
  | touch c =>
    obtain ⟨-, rfl⟩ := hold_touch.mp h
    simp
  | release c =>
    obtain ⟨hmem, rfl⟩ := hold_release.mp h
    by_cases hc : c = b
    · subst hc
      have hpos := List.count_pos_iff.mpr hmem
      simp
      omega
    · simp [hc, List.count_erase_of_ne (Ne.symm hc)]

theorem holdAll_count (h : holdAll held trace = some held') (b : α) :
    trace.count (.take b) + held.count b = trace.count (.release b) + held'.count b := by
  induction trace generalizing held with
  | nil =>
    obtain rfl := Option.some.inj h
    rfl
  | cons a trace ih =>
    obtain ⟨mid, hstep, hrest⟩ := holdAll_cons.mp h
    have h1 := hold_count hstep b
    have h2 := ih hrest
    rw [← List.singleton_append, List.count_append, List.count_append]
    omega

theorem hold_absent (h : hold held a = some held') (hb : b ∉ held) (ha : a ≠ .take b) :
    b ∉ held' ∧ a ≠ .touch b := by
  cases a with
  | take c =>
    obtain rfl := Option.some.inj h
    refine ⟨fun hmem => ?_, by simp⟩
    obtain rfl | hmem := List.mem_cons.mp hmem
    · exact ha rfl
    · exact hb hmem
  | touch c =>
    obtain ⟨hc, rfl⟩ := hold_touch.mp h
    refine ⟨hb, ?_⟩
    rintro ⟨rfl⟩
    exact hb hc
  | release c =>
    obtain ⟨-, rfl⟩ := hold_release.mp h
    exact ⟨fun hmem => hb (List.mem_of_mem_erase hmem), by simp⟩

theorem holdAll_absent (h : holdAll held trace = some held') (hb : b ∉ held)
    (htake : .take b ∉ trace) : .touch b ∉ trace := by
  induction trace generalizing held with
  | nil => simp
  | cons a trace ih =>
    obtain ⟨mid, hstep, hrest⟩ := holdAll_cons.mp h
    simp only [List.mem_cons, not_or] at htake ⊢
    obtain ⟨hmid, htouch⟩ := hold_absent hstep hb (Ne.symm htake.1)
    exact ⟨Ne.symm htouch, ih hrest hmid htake.2⟩

theorem untouched_after (h : holdAll [] (pre ++ .release b :: post) = some held')
    (hone : (pre ++ .release b :: post).count (.take b) ≤ 1) : .touch b ∉ post := by
  obtain ⟨mid, hpre, hpost⟩ := holdAll_append.mp h
  obtain ⟨mid', hrelease, hrest⟩ := holdAll_cons.mp hpost
  obtain ⟨hmem, rfl⟩ := hold_release.mp hrelease
  have hheld := List.count_pos_iff.mpr hmem
  have hcount := holdAll_count hpre b
  rw [List.count_append, List.count_cons_of_ne (by simp)] at hone
  rw [List.count_nil] at hcount
  refine holdAll_absent hrest (fun hin => ?_) (fun htake => ?_)
  · have := List.count_pos_iff.mpr hin
    rw [List.count_erase_self] at this
    omega
  · have := List.count_pos_iff.mpr htake
    omega

/-- If nothing is held in the end, a block that is taken at most once, but occurs, is taken and
released once. -/
theorem released_once (h : holdAll [] trace = some [])
    (hone : trace.count (.take b) ≤ 1) (hb : .take b ∈ trace ∨ .release b ∈ trace) :
    trace.count (.take b) = 1 ∧ trace.count (.release b) = 1 := by
  have hcount := holdAll_count h b
  rw [List.count_nil] at hcount
  have hpos : 1 ≤ trace.count (.take b) := by
    obtain hb | hb := hb
    · exact List.count_pos_iff.mpr hb
    · have := List.count_pos_iff.mpr hb
      omega
  omega

end RedstoneOS.Library.Ownership
