import Mathlib.Data.Nat.Digits.Lemmas

namespace RedstoneOS.Library.Numerals

variable {β : Type*} {digit : Nat → β} {value : β → Nat} {r n : Nat} {l : List β}

def numeral (digit : Nat → β) (r n : Nat) : List β :=
  if n = 0 then [digit 0] else ((Nat.digits r n).map digit).reverse

def evaluate (value : β → Nat) (r : Nat) (l : List β) : Nat :=
  l.foldl (fun v c => r * v + value c) 0

/-- A text of digits below the radix that reads as the number, and begins with a zero only
if it is the single zero. -/
structure IsNumeral (digit : Nat → β) (value : β → Nat) (r n : Nat) (l : List β) : Prop where
  digits : ∀ c ∈ l, ∃ d, d < r ∧ c = digit d
  value : evaluate value r l = n
  nonempty : l ≠ []
  leading : l.head? = some (digit 0) → n = 0 ∧ l = [digit 0]

/-- What the table of digits must do: a digit below the radix can be told from its character. -/
def Readable (digit : Nat → β) (value : β → Nat) (r : Nat) : Prop :=
  ∀ d, d < r → value (digit d) = d

theorem Readable.mono {r' : Nat} (h : Readable digit value r') (hr : r ≤ r') :
    Readable digit value r := fun d hd => h d (Nat.lt_of_lt_of_le hd hr)

theorem evaluate_append (l l' : List β) : evaluate value r (l ++ l') =
    l'.foldl (fun v c => r * v + value c) (evaluate value r l) := List.foldl_append

theorem evaluate_zeros (hz : value (digit 0) = 0) (k : Nat) (l : List β) :
    evaluate value r (List.replicate k (digit 0) ++ l) = evaluate value r l := by
  have h0 : evaluate value r (List.replicate k (digit 0)) = 0 := by
    induction k with
    | zero => rfl
    | succ k ih =>
      rw [List.replicate_succ', evaluate_append, ih]
      simp [hz]
  rw [evaluate_append, h0]
  rfl

theorem evaluate_reverse (hv : Readable digit value r) {ds : List Nat} (hds : ∀ d ∈ ds, d < r) :
    evaluate value r (ds.map digit).reverse = Nat.ofDigits r ds := by
  rw [evaluate, List.foldl_reverse]
  induction ds with
  | nil => rfl
  | cons d ds ih =>
    rw [List.map_cons, List.foldr_cons, ih fun e he => hds e (List.mem_cons_of_mem d he),
      hv d (hds d List.mem_cons_self), Nat.ofDigits_cons, Nat.add_comm]

theorem numeral_pos (hn : n ≠ 0) : numeral digit r n = ((Nat.digits r n).map digit).reverse :=
  if_neg hn

theorem numeral_length (hn : n ≠ 0) : (numeral digit r n).length = (Nat.digits r n).length := by
  rw [numeral_pos hn, List.length_reverse, List.length_map]

theorem numeral_of_lt (h : n < r) : numeral digit r n = [digit n] := by
  by_cases hn : n = 0
  · rw [hn, numeral, if_pos rfl]
  · rw [numeral_pos hn, Nat.digits_of_lt r n hn h]
    rfl

theorem numeral_concat (hr : 1 < r) (h : r ≤ n) :
    numeral digit r n = numeral digit r (n / r) ++ [digit (n % r)] := by
  have hdiv : n / r ≠ 0 := Nat.div_ne_zero_iff.mpr ⟨by omega, h⟩
  rw [numeral_pos (by omega), numeral_pos hdiv, Nat.digits_def' hr (by omega), List.map_cons,
    List.reverse_cons]

theorem numeral_length_le_iff (hr : 1 < r) {k : Nat} (hk : 0 < k) :
    (numeral digit r n).length ≤ k ↔ n < r ^ k := by
  by_cases hn : n = 0
  · rw [numeral, if_pos hn, hn]
    exact iff_of_true hk (Nat.pow_pos (by omega))
  · rw [numeral_length hn]
    exact Nat.digits_length_le_iff hr n

theorem numeral_digits (hr : 1 < r) (n : Nat) :
    ∀ c ∈ numeral digit r n, ∃ d, d < r ∧ c = digit d := by
  intro c hc
  rw [numeral] at hc
  split at hc
  · exact ⟨0, by omega, List.mem_singleton.mp hc⟩
  · obtain ⟨d, hd, rfl⟩ := List.mem_map.mp (List.mem_reverse.mp hc)
    exact ⟨d, Nat.digits_lt_base hr hd, rfl⟩

theorem evaluate_numeral (hr : 1 < r) (hv : Readable digit value r) (n : Nat) :
    evaluate value r (numeral digit r n) = n := by
  by_cases hn : n = 0
  · rw [numeral, if_pos hn, hn]
    have h0 := hv 0 (by omega)
    simp [evaluate, h0]
  · rw [numeral_pos hn, evaluate_reverse hv fun d hd => Nat.digits_lt_base hr hd,
      Nat.ofDigits_digits]

theorem numeral_leading (hr : 1 < r) (hv : Readable digit value r)
    (h : (numeral digit r n).head? = some (digit 0)) : n = 0 := by
  by_contra hn
  have hne := Nat.digits_ne_nil_iff_ne_zero (b := r).mpr hn
  rw [numeral_pos hn, List.head?_reverse, List.getLast?_map, List.getLast?_eq_some_getLast hne,
    Option.map_some, Option.some.injEq] at h
  have hlast := hv _ (Nat.digits_lt_base hr (List.getLast_mem hne))
  rw [h, hv 0 (by omega)] at hlast
  exact Nat.getLast_digit_ne_zero r hn hlast.symm

theorem isNumeral_numeral (hr : 1 < r) (hv : Readable digit value r) (n : Nat) :
    IsNumeral digit value r n (numeral digit r n) where
  digits := numeral_digits hr n
  value := evaluate_numeral hr hv n
  nonempty := by
    by_cases hn : n = 0
    · rw [numeral, if_pos hn]
      exact List.cons_ne_nil _ _
    · rw [numeral_pos hn]
      simpa [Nat.digits_ne_nil_iff_ne_zero] using hn
  leading h := by
    have hn := numeral_leading hr hv h
    exact ⟨hn, if_pos hn⟩

end RedstoneOS.Library.Numerals
