import Mathlib.Data.List.Infix

namespace RedstoneOS.Library.LineReader

variable {α : Type*} [DecidableEq α] {sep : α} {limit : Nat} {held l : List α}

/-- The pieces of a stream as a buffer of `limit` elements gives them, with `held` already in
the buffer: a piece ends before a separator or where the buffer is full. -/
def pieces (sep : α) (limit : Nat) (held : List α) : List α → List (List α)
  | [] => if held = [] then [] else [held]
  | c :: l =>
    if c = sep then held :: pieces sep limit [] l
    else if held.length + 1 = limit then (held ++ [c]) :: pieces sep limit [] l
    else pieces sep limit (held ++ [c]) l

@[simp] theorem pieces_nil (held : List α) :
    pieces sep limit held [] = if held = [] then [] else [held] := rfl

theorem pieces_hold (hl : sep ∉ l) (hroom : held.length + l.length < limit) (r : List α) :
    pieces sep limit held (l ++ r) = pieces sep limit (held ++ l) r := by
  induction l generalizing held with
  | nil => rw [List.nil_append, List.append_nil]
  | cons c l ih =>
    rw [List.length_cons] at hroom
    have hc : c ≠ sep := fun h => hl (h ▸ List.mem_cons_self)
    have hsep : sep ∉ l := fun h => hl (List.mem_cons_of_mem _ h)
    have hlen : (held ++ [c]).length = held.length + 1 := by simp
    rw [List.cons_append, pieces, if_neg hc, if_neg (by omega), ih hsep (by omega),
      List.append_assoc, List.singleton_append]

theorem pieces_line (hl : sep ∉ l) (hroom : held.length + l.length < limit) (r : List α) :
    pieces sep limit held (l ++ sep :: r) = (held ++ l) :: pieces sep limit [] r := by
  rw [pieces_hold hl hroom, pieces, if_pos rfl]

theorem pieces_full (hl : sep ∉ l) (hne : l ≠ []) (hfull : held.length + l.length = limit)
    (r : List α) : pieces sep limit held (l ++ r) = (held ++ l) :: pieces sep limit [] r := by
  obtain ⟨l, c, rfl⟩ := List.eq_nil_or_concat l |>.resolve_left hne
  rw [List.concat_eq_append] at hl hfull ⊢
  have hc : c ≠ sep := fun h => hl (by simp [h])
  have hsep : sep ∉ l := fun h => hl (List.mem_append_left _ h)
  rw [List.length_append, List.length_singleton] at hfull
  have hlen : (held ++ l).length = held.length + l.length := List.length_append
  rw [List.append_assoc, pieces_hold hsep (by omega), List.singleton_append, pieces, if_neg hc,
    if_pos (by omega), List.append_assoc]

/-- Where no line fills the buffer, the pieces with something in them are such lines. -/
theorem pieces_lines (h : ∀ line ∈ l.splitOn sep, line.length < limit) :
    (pieces sep limit [] l).filter (fun p => p ≠ []) =
      (l.splitOn sep).filter (fun p => p ≠ []) := by
  induction hn : l.length using Nat.strong_induction_on generalizing l with
  | _ n ih =>
    by_cases hsep : sep ∈ l
    · obtain ⟨a, b, rfl, ha⟩ := List.eq_append_cons_of_mem hsep
      rw [List.splitOn_append_cons_self_of_not_mem ha] at h ⊢
      have hroom : ([] : List α).length + a.length < limit := by
        simpa using h a List.mem_cons_self
      have hlt : b.length < n := by
        rw [← hn, List.length_append, List.length_cons]
        omega
      rw [pieces_line ha hroom, List.nil_append, List.filter_cons, List.filter_cons,
        ih b.length hlt (fun line hline => h line (List.mem_cons_of_mem _ hline)) rfl]
    · rw [List.splitOn_eq_singleton hsep] at h ⊢
      have hroom : ([] : List α).length + l.length < limit := by
        simpa using h l List.mem_cons_self
      have hhold := pieces_hold hsep hroom []
      rw [List.append_nil, List.nil_append] at hhold
      rw [hhold, pieces_nil]
      by_cases hl : l = []
      · simp [hl]
      · simp [hl]

end RedstoneOS.Library.LineReader
