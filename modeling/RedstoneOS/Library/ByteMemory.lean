import Mathlib.Data.List.GetD
import Mathlib.Data.List.Range
import Mathlib.Logic.Function.Basic

namespace RedstoneOS.Library.ByteMemory

variable {β : Type*}

abbrev Memory (β : Type*) := Nat → β

def fill (m : Memory β) (dst : Nat) (f : Nat → β) (n : Nat) : Memory β :=
  fun a => if dst ≤ a ∧ a < dst + n then f (a - dst) else m a

def readBytes (m : Memory β) (a n : Nat) : List β := (List.range n).map (fun i => m (a + i))

theorem fill_inside (m : Memory β) (dst : Nat) (f : Nat → β) {n i : Nat} (hi : i < n) :
    fill m dst f n (dst + i) = f i := by
  simp [fill, hi]

theorem fill_outside (m : Memory β) (dst : Nat) (f : Nat → β) {n a : Nat}
    (ha : a < dst ∨ dst + n ≤ a) : fill m dst f n a = m a := by
  have h : ¬ (dst ≤ a ∧ a < dst + n) := by omega
  simp only [fill, if_neg h]

@[simp] theorem fill_zero (m : Memory β) (dst : Nat) (f : Nat → β) : fill m dst f 0 = m := by
  funext a
  exact fill_outside m dst f (by omega)

theorem fill_congr (m : Memory β) (dst : Nat) {f g : Nat → β} {n : Nat}
    (h : ∀ i, i < n → f i = g i) : fill m dst f n = fill m dst g n := by
  funext a
  by_cases ha : dst ≤ a ∧ a < dst + n
  · simp only [fill, if_pos ha]
    exact h _ (by omega)
  · simp only [fill, if_neg ha]

theorem fill_append (m : Memory β) (dst : Nat) (f : Nat → β) (r n : Nat) :
    fill (fill m dst f r) (dst + r) (fun i => f (r + i)) n = fill m dst f (r + n) := by
  funext a
  by_cases hr : a < dst + r
  · rw [fill_outside _ _ _ (Or.inl hr)]
    by_cases hd : dst ≤ a
    · obtain ⟨i, rfl⟩ := Nat.exists_eq_add_of_le hd
      rw [fill_inside _ _ _ (by omega), fill_inside _ _ _ (by omega)]
    · rw [fill_outside _ _ _ (by omega), fill_outside _ _ _ (by omega)]
  · by_cases hn : a < dst + (r + n)
    · obtain ⟨i, rfl⟩ := Nat.exists_eq_add_of_le (Nat.le_of_not_lt hr)
      rw [fill_inside _ _ _ (by omega), Nat.add_assoc, fill_inside _ _ _ (by omega)]
    · rw [fill_outside _ _ _ (by omega), fill_outside _ _ _ (by omega),
        fill_outside _ _ _ (by omega)]

theorem fill_one (m : Memory β) (dst : Nat) (f : Nat → β) :
    fill m dst f 1 = Function.update m dst (f 0) := by
  funext a
  by_cases ha : a = dst
  · subst ha
    simpa using fill_inside m a f Nat.zero_lt_one
  · rw [fill_outside _ _ _ (by omega), Function.update_of_ne ha]

theorem fill_succ (m : Memory β) (dst : Nat) (f : Nat → β) (n : Nat) :
    fill m dst f (n + 1) = fill (Function.update m dst (f 0)) (dst + 1) (fun i => f (i + 1)) n := by
  have hshift : (fun i => f (i + 1)) = fun i => f (1 + i) := by
    funext i
    rw [Nat.add_comm]
  rw [Nat.add_comm n 1, ← fill_append, fill_one, hshift]

theorem readBytes_fill (m : Memory β) (dst : Nat) (f : Nat → β) (n : Nat) :
    readBytes (fill m dst f n) dst n = (List.range n).map f := by
  apply List.map_congr_left
  intro i hi
  exact fill_inside m dst f (List.mem_range.mp hi)

theorem readBytes_succ (m : Memory β) (a n : Nat) :
    readBytes m a (n + 1) = m a :: readBytes m (a + 1) n := by
  rw [readBytes, List.range_succ_eq_map, List.map_cons, List.map_map, readBytes]
  refine congrArg _ (List.map_congr_left fun i _ => ?_)
  rw [Function.comp_apply, Nat.succ_eq_add_one, Nat.add_assoc a 1, Nat.add_comm 1]

theorem readBytes_length (m : Memory β) (a n : Nat) : (readBytes m a n).length = n := by
  simp [readBytes]

def place (m : Memory β) (a : Nat) (l : List β) : Memory β :=
  fun x => if a ≤ x then (l[x - a]?).getD (m x) else m x

theorem place_inside (m : Memory β) (a : Nat) {l : List β} {i : Nat} (hi : i < l.length) :
    place m a l (a + i) = l[i] := by
  rw [place, if_pos (Nat.le_add_right a i), Nat.add_sub_cancel_left, List.getElem?_eq_getElem hi,
    Option.getD_some]

theorem place_outside (m : Memory β) (a : Nat) {l : List β} {x : Nat}
    (hx : x < a ∨ a + l.length ≤ x) : place m a l x = m x := by
  rw [place]
  split
  · rw [List.getElem?_eq_none (by omega), Option.getD_none]
  · rfl

@[simp] theorem place_nil (m : Memory β) (a : Nat) : place m a [] = m := by
  funext x
  exact place_outside m a (by simp; omega)

theorem place_cons (m : Memory β) (a : Nat) (c : β) (l : List β) :
    place m a (c :: l) = place (Function.update m a c) (a + 1) l := by
  funext x
  obtain h | rfl | h := Nat.lt_trichotomy x a
  · rw [place_outside _ _ (Or.inl h), place_outside _ _ (by omega), Function.update_of_ne (by omega)]
  · rw [place_outside _ (x + 1) (by omega), Function.update_self]
    exact place_inside m x (i := 0) (by simp)
  · obtain ⟨i, rfl⟩ := Nat.exists_eq_add_of_lt h
    rw [place, place, if_pos (by omega), if_pos (by omega), Function.update_of_ne (by omega),
      show a + i + 1 - a = i + 1 by omega, show a + i + 1 - (a + 1) = i by omega,
      List.getElem?_cons_succ]

theorem place_append (m : Memory β) (a : Nat) (k l : List β) :
    place (place m (a + k.length) l) a k = place m a (k ++ l) := by
  induction k generalizing m a with
  | nil => simp
  | cons c k ih =>
    rw [List.cons_append, place_cons, place_cons, ← ih]
    congr 1
    funext x
    by_cases hx : x = a
    · rw [hx, Function.update_self, place_outside _ _ (by omega), Function.update_self]
    · rw [Function.update_of_ne hx, place, place, List.length_cons, Function.update_of_ne hx,
        show a + 1 + k.length = a + (k.length + 1) by omega]

theorem place_concat (m : Memory β) (a : Nat) (l : List β) (c : β) :
    place m a (l ++ [c]) = place (Function.update m (a + l.length) c) a l := by
  rw [← place_append, place_cons, place_nil]

theorem place_update (m : Memory β) {a b : Nat} {l : List β} (c : β)
    (hb : b < a ∨ a + l.length ≤ b) :
    Function.update (place m a l) b c = place (Function.update m b c) a l := by
  funext x
  by_cases hx : x = b
  · rw [hx, Function.update_self, place_outside _ _ hb, Function.update_self]
  · rw [Function.update_of_ne hx, place, place, Function.update_of_ne hx]

theorem readBytes_place (m : Memory β) (a : Nat) (l : List β) :
    readBytes (place m a l) a l.length = l := by
  apply List.ext_getElem
  · exact readBytes_length _ _ _
  · intro i _ hi
    simp only [readBytes, List.getElem_map, List.getElem_range]
    exact place_inside m a hi

theorem range_map_getD (l : List β) (d : β) {n : Nat} (h : l.length ≤ n) :
    (List.range n).map (fun i => l.getD i d) = l ++ List.replicate (n - l.length) d := by
  apply List.ext_getElem
  · simp
    omega
  · intro i h₁ h₂
    simp only [List.getElem_map, List.getElem_range, List.getElem_append]
    split
    · exact List.getD_eq_getElem _ _ ‹_›
    · rw [List.getElem_replicate, List.getD_eq_default _ _ (by omega)]

def AgreeOn (lo hi : Nat) (m m' : Memory β) : Prop := ∀ a, lo ≤ a → a < hi → m a = m' a

theorem agreeOn_fill (m : Memory β) (dst : Nat) (f : Nat → β) {n lo hi : Nat}
    (h : dst + n ≤ lo ∨ hi ≤ dst) : AgreeOn lo hi (fill m dst f n) m := by
  intro a hlo hhi
  exact fill_outside m dst f (by omega)

theorem agreeOn_trans {lo hi : Nat} {m₁ m₂ m₃ : Memory β} (h : AgreeOn lo hi m₁ m₂)
    (h' : AgreeOn lo hi m₂ m₃) : AgreeOn lo hi m₁ m₃ :=
  fun a hlo hhi => (h a hlo hhi).trans (h' a hlo hhi)

theorem fill_eq_place (m : Memory β) (a : Nat) (f : Nat → β) (n : Nat) :
    fill m a f n = place m a ((List.range n).map f) := by
  funext x
  by_cases hx : a ≤ x ∧ x < a + n
  · obtain ⟨i, rfl⟩ := Nat.exists_eq_add_of_le hx.1
    rw [fill_inside _ _ _ (by omega), place_inside _ _ (by simp; omega)]
    simp
  · rw [fill_outside _ _ _ (by omega), place_outside _ _ (by simp; omega)]

theorem readBytes_append (m : Memory β) (a n n' : Nat) :
    readBytes m a (n + n') = readBytes m a n ++ readBytes m (a + n) n' := by
  simp only [readBytes, List.range_add, List.map_append, List.map_map, Function.comp_def,
    Nat.add_assoc]

theorem readBytes_congr {m m' : Memory β} {a n : Nat} (h : ∀ x, a ≤ x → x < a + n → m x = m' x) :
    readBytes m a n = readBytes m' a n := by
  apply List.map_congr_left
  intro i hi
  exact h _ (by omega) (by have hlt := List.mem_range.mp hi; omega)

/-- The second memory differs from the first at most in the `n` elements from `a` on. -/
def ChangedIn (a n : Nat) (m m' : Memory β) : Prop := ∀ x, x < a ∨ a + n ≤ x → m' x = m x

theorem changedIn_refl (a n : Nat) (m : Memory β) : ChangedIn a n m m := fun _ _ => rfl

theorem ChangedIn.trans {a n : Nat} {m₁ m₂ m₃ : Memory β} (h : ChangedIn a n m₁ m₂)
    (h' : ChangedIn a n m₂ m₃) : ChangedIn a n m₁ m₃ :=
  fun x hx => (h' x hx).trans (h x hx)

theorem ChangedIn.widen {a n b k : Nat} {m m' : Memory β} (h : ChangedIn a n m m') (hlo : b ≤ a)
    (hhi : a + n ≤ b + k) : ChangedIn b k m m' := fun x hx => h x (by omega)

theorem changedIn_update {a n b : Nat} (m : Memory β) (c : β) (hlo : a ≤ b) (hhi : b < a + n) :
    ChangedIn a n m (Function.update m b c) :=
  fun _ _ => Function.update_of_ne (by omega) _ _

theorem changedIn_place {a n b : Nat} (m : Memory β) {l : List β} (hlo : a ≤ b)
    (hhi : b + l.length ≤ a + n) : ChangedIn a n m (place m b l) :=
  fun _ _ => place_outside _ _ (by omega)

theorem ChangedIn.agreeOn {a n lo hi : Nat} {m m' : Memory β} (h : ChangedIn a n m m')
    (hout : a + n ≤ lo ∨ hi ≤ a) : AgreeOn lo hi m' m :=
  fun x _ _ => h x (by omega)

end RedstoneOS.Library.ByteMemory
