import Mathlib.Data.List.Infix
import Mathlib.Logic.Function.Basic

namespace RedstoneOS.Library.SequentialReader

variable {ι β : Type*} [DecidableEq ι] (file : ι → List β)

def next (pos : ι → Nat) (i : ι) (n : Nat) : List β := ((file i).drop (pos i)).take n

def advance (pos : ι → Nat) (i : ι) (n : Nat) : ι → Nat :=
  Function.update pos i (pos i + (next file pos i n).length)

def serve (pos : ι → Nat) : List (ι × Nat) → List (ι × List β)
  | [] => []
  | (i, n) :: cs => (i, next file pos i n) :: serve (advance file pos i n) cs

def collected (i : ι) (ds : List (ι × List β)) : List β :=
  (ds.filter (fun d => d.1 = i)).flatMap (fun d => d.2)

@[simp] theorem collected_nil (i : ι) : collected i ([] : List (ι × List β)) = [] := rfl

theorem collected_cons_self (i : ι) (l : List β) (ds : List (ι × List β)) :
    collected i ((i, l) :: ds) = l ++ collected i ds := by
  simp [collected]

theorem collected_cons_other {i j : ι} (h : j ≠ i) (l : List β) (ds : List (ι × List β)) :
    collected i ((j, l) :: ds) = collected i ds := by
  simp [collected, h]

def after (pos : ι → Nat) (cs : List (ι × Nat)) : ι → Nat :=
  fun i => pos i + (collected i (serve file pos cs)).length

theorem after_cons (pos : ι → Nat) (i : ι) (n : Nat) (cs : List (ι × Nat)) :
    after file pos ((i, n) :: cs) = after file (advance file pos i n) cs := by
  funext j
  simp only [after, serve]
  by_cases hj : i = j
  · subst hj
    rw [collected_cons_self, List.length_append, advance, Function.update_self, Nat.add_assoc]
  · rw [collected_cons_other hj, advance, Function.update_of_ne (Ne.symm hj)]

theorem serve_length (pos : ι → Nat) (cs : List (ι × Nat)) :
    (serve file pos cs).length = cs.length := by
  induction cs generalizing pos with
  | nil => rfl
  | cons c cs ih => rw [serve, List.length_cons, ih, List.length_cons]

/-- What a reader got so far is the part of its file from its first position on. -/
theorem collected_prefix (pos : ι → Nat) (cs : List (ι × Nat)) (i : ι) :
    collected i (serve file pos cs) <+: (file i).drop (pos i) := by
  induction cs generalizing pos with
  | nil => exact List.nil_prefix
  | cons c cs ih =>
    obtain ⟨j, n⟩ := c
    have hrest := ih (advance file pos j n)
    rw [serve]
    by_cases hj : j = i
    · subst hj
      obtain ⟨post, hpost⟩ := hrest
      rw [collected_cons_self]
      refine ⟨post, ?_⟩
      have hsplit : (file j).drop (pos j) =
          next file pos j n ++ (file j).drop (pos j + (next file pos j n).length) := by
        rw [← List.drop_drop, next, List.length_take]
        obtain hn | hn := Nat.le_total n ((file j).drop (pos j)).length
        · rw [Nat.min_eq_left hn, List.take_append_drop]
        · rw [Nat.min_eq_right hn, List.take_of_length_le hn, List.drop_length, List.append_nil]
      rw [hsplit, List.append_assoc, hpost, advance, Function.update_self]
    · rw [collected_cons_other hj]
      rwa [advance, Function.update_of_ne (Ne.symm hj)] at hrest

end RedstoneOS.Library.SequentialReader
