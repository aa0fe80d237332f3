import Mathlib.Data.List.Nodup
import Mathlib.Logic.Function.Basic

namespace RedstoneOS.Library.LinkedList

variable {ι : Type*} {link link' : Option ι → Option ι} {c : Option ι} {i : ι} {l l' pre post : List ι}

/-- The cells of a list are its head, `none`, and the pointers of its nodes. From a cell, the
pointers visit exactly the listed nodes and then the null pointer. -/
def Linked (link : Option ι → Option ι) : Option ι → List ι → Prop
  | c, [] => link c = none
  | c, i :: l => link c = some i ∧ Linked link (some i) l

theorem Linked.unique (h : Linked link c l) (h' : Linked link c l') : l = l' := by
  induction l generalizing c l' with
  | nil =>
    cases l' with
    | nil => rfl
    | cons j l' =>
      have hnull : link c = none := h
      exact absurd (hnull.symm.trans h'.1) (by simp)
  | cons i l ih =>
    cases l' with
    | nil => exact absurd (h.1.symm.trans h') (by simp)
    | cons j l' =>
      obtain rfl := Option.some.inj (h.1.symm.trans h'.1)
      rw [ih h.2 h'.2]

theorem Linked.after (h : Linked link c (pre ++ i :: post)) : Linked link (some i) post := by
  induction pre generalizing c with
  | nil => exact h.2
  | cons j pre ih => exact ih h.2

theorem Linked.not_mem (h : Linked link (some i) l) : i ∉ l := by
  intro hi
  obtain ⟨pre, post, rfl⟩ := List.append_of_mem hi
  have hlen := congrArg List.length (h.unique h.after)
  simp only [List.length_append, List.length_cons] at hlen
  omega

theorem Linked.nodup (h : Linked link c l) : l.Nodup := by
  induction l generalizing c with
  | nil => exact List.nodup_nil
  | cons i l ih => exact List.nodup_cons.mpr ⟨h.2.not_mem, ih h.2⟩

theorem Linked.congr (h : Linked link c l) (hc : link' c = link c)
    (hl : ∀ i ∈ l, link' (some i) = link (some i)) : Linked link' c l := by
  induction l generalizing c with
  | nil => exact hc.trans h
  | cons i l ih =>
    exact ⟨hc.trans h.1, ih h.2 (hl i List.mem_cons_self) fun j hj => hl j (List.mem_cons_of_mem i hj)⟩

/-- A walk never ends if every cell of some set points to a node whose cell is in the set. -/
theorem not_linked_of_closed {S : Option ι → Prop} (hc : S c)
    (hS : ∀ d, S d → ∃ j, link d = some j ∧ S (some j)) : ¬ Linked link c l := by
  induction l generalizing c with
  | nil =>
    intro h
    obtain ⟨j, hj, -⟩ := hS c hc
    exact absurd (hj.symm.trans h) (by simp)
  | cons i l ih =>
    intro h
    obtain ⟨j, hj, hSj⟩ := hS c hc
    obtain rfl := Option.some.inj (hj.symm.trans h.1)
    exact ih hSj h.2

theorem Linked.points (h : Linked link c (pre ++ i :: post)) {d : Option ι}
    (hd : d = c ∨ ∃ j ∈ pre, d = some j) : ∃ j ∈ pre ++ [i], link d = some j := by
  induction pre generalizing c with
  | nil =>
    obtain rfl | ⟨j, hj, -⟩ := hd
    · exact ⟨i, by simp, h.1⟩
    · cases hj
  | cons k pre ih =>
    obtain rfl | ⟨j, hj, rfl⟩ := hd
    · exact ⟨k, by simp, h.1⟩
    · obtain ⟨j', hj', hlink⟩ := ih h.2 (by
        obtain rfl | hj := List.mem_cons.mp hj
        · exact Or.inl rfl
        · exact Or.inr ⟨j, hj, rfl⟩)
      exact ⟨j', List.mem_cons_of_mem k hj', hlink⟩

def cellAfter (c : Option ι) (pre : List ι) : Option ι := pre.foldl (fun _ j => some j) c

theorem cellAfter_mem (c : Option ι) (pre : List ι) :
    cellAfter c pre = c ∨ ∃ j ∈ pre, cellAfter c pre = some j := by
  induction pre generalizing c with
  | nil => exact Or.inl rfl
  | cons k pre ih =>
    obtain h | ⟨j, hj, h⟩ := ih (some k)
    · exact Or.inr ⟨k, List.mem_cons_self, h⟩
    · exact Or.inr ⟨j, List.mem_cons_of_mem k hj, h⟩

variable [DecidableEq ι]

def push (link : Option ι → Option ι) (i : ι) : Option ι → Option ι :=
  Function.update (Function.update link (some i) (link none)) none (some i)

theorem push_none (link : Option ι → Option ι) (i : ι) : push link i none = some i :=
  Function.update_self _ _ _

theorem push_self (link : Option ι → Option ι) (i : ι) : push link i (some i) = link none := by
  rw [push, Function.update_of_ne (by simp), Function.update_self]

theorem push_other (link : Option ι → Option ι) {i j : ι} (h : j ≠ i) :
    push link i (some j) = link (some j) := by
  rw [push, Function.update_of_ne (by simp), Function.update_of_ne (by simpa using h)]

theorem Linked.push (h : Linked link none l) (hi : i ∉ l) : Linked (push link i) none (i :: l) := by
  have hother : ∀ j ∈ l, LinkedList.push link i (some j) = link (some j) := by
    intro j hj
    apply push_other
    rintro rfl
    exact hi hj
  refine ⟨push_none link i, ?_⟩
  cases l with
  | nil => exact (push_self link i).trans h
  | cons k l =>
    refine ⟨(push_self link i).trans h.1, h.2.congr (hother k List.mem_cons_self) fun j hj => ?_⟩
    exact hother j (List.mem_cons_of_mem k hj)

theorem not_linked_push (h : Linked link none l) (hi : i ∈ l) : ¬ Linked (push link i) none l' := by
  obtain ⟨pre, post, rfl⟩ := List.append_of_mem hi
  -- the cells up to the node point to nodes up to it, and the node now points to the first
  apply not_linked_of_closed (S := fun d => d = none ∨ ∃ j ∈ pre ++ [i], d = some j) (Or.inl rfl)
  rintro d (rfl | ⟨j, hj, rfl⟩)
  · exact ⟨i, push_none link i, Or.inr ⟨i, by simp, rfl⟩⟩
  · by_cases hji : j = i
    · obtain ⟨k, hk, hlink⟩ := h.points (Or.inl rfl)
      rw [hji, push_self]
      exact ⟨k, hlink, Or.inr ⟨k, hk, rfl⟩⟩
    · have hpre : j ∈ pre := by simpa [hji] using hj
      obtain ⟨k, hk, hlink⟩ := h.points (Or.inr ⟨j, hpre, rfl⟩)
      rw [push_other link hji]
      exact ⟨k, hlink, Or.inr ⟨k, hk, rfl⟩⟩

theorem Linked.unlink (h : Linked link c (pre ++ i :: post)) (hc : ∀ j ∈ pre ++ i :: post, c ≠ some j) :
    Linked (Function.update link (cellAfter c pre) (link (some i))) c (pre ++ post) := by
  induction pre generalizing c with
  | nil =>
    have hother : ∀ j ∈ post, Function.update link c (link (some i)) (some j) = link (some j) :=
      fun j hj => Function.update_of_ne (hc j (List.mem_cons_of_mem i hj)).symm _ _
    cases post with
    | nil => exact (Function.update_self _ _ _).trans h.2
    | cons k post =>
      refine ⟨(Function.update_self _ _ _).trans h.2.1, h.2.2.congr (hother k List.mem_cons_self) ?_⟩
      exact fun j hj => hother j (List.mem_cons_of_mem k hj)
  | cons k pre ih =>
    have hk : ∀ j ∈ pre ++ i :: post, some k ≠ some j := by
      intro j hj he
      obtain rfl := Option.some.inj he
      exact h.2.not_mem hj
    refine ⟨?_, ih h.2 hk⟩
    rw [Function.update_of_ne]
    · exact h.1
    · intro he
      obtain hcell | ⟨j, hj, hcell⟩ := cellAfter_mem (some k) pre
      · exact hc k List.mem_cons_self (he.trans hcell)
      · exact hc j (List.mem_cons_of_mem k (List.mem_append_left _ hj)) (he.trans hcell)

end RedstoneOS.Library.LinkedList
