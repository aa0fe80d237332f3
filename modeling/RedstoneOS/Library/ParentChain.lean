import Mathlib.Data.List.Nodup
import Mathlib.Logic.Function.Iterate

namespace RedstoneOS.Library.ParentChain

variable {α : Type*}

/-- Following `next` from a node visits exactly the listed nodes and then stops. -/
inductive Chain (next : α → α) (stop : α) : α → List α → Prop
  | nil : Chain next stop stop []
  | cons {a : α} {l : List α} (hne : a ≠ stop) (h : Chain next stop (next a) l) :
      Chain next stop a (a :: l)

variable {next : α → α} {stop a b : α} {l l' : List α}

theorem chain_unique (h : Chain next stop a l) (h' : Chain next stop a l') : l = l' := by
  induction h generalizing l' with
  | nil =>
    cases h' with
    | nil => rfl
    | cons hne _ => exact absurd rfl hne
  | cons hne _ ih =>
    cases h' with
    | nil => exact absurd rfl hne
    | cons _ h' => rw [ih h']

theorem chain_iterate (h : Chain next stop a l) : next^[l.length] a = stop := by
  induction h with
  | nil => rfl
  | cons _ _ ih => simpa only [List.length_cons, Function.iterate_succ_apply] using ih

theorem chain_of_mem (h : Chain next stop a l) (hb : b ∈ l) :
    ∃ pre post, l = pre ++ b :: post ∧ Chain next stop b (b :: post) := by
  induction h with
  | nil => simp at hb
  | @cons c m hne h ih =>
    obtain rfl | hb := List.mem_cons.mp hb
    · exact ⟨[], m, rfl, .cons hne h⟩
    · obtain ⟨pre, post, rfl, hpost⟩ := ih hb
      exact ⟨c :: pre, post, rfl, hpost⟩

/-- A walk that stops is acyclic: it would otherwise repeat its own tail for ever. -/
theorem chain_nodup (h : Chain next stop a l) : l.Nodup := by
  induction h with
  | nil => exact List.nodup_nil
  | @cons c m hne h ih =>
    refine List.nodup_cons.mpr ⟨fun hc => ?_, ih⟩
    obtain ⟨pre, post, hm, hpost⟩ := chain_of_mem h hc
    have he := chain_unique hpost (.cons hne h)
    have hl := congrArg List.length he
    rw [hm] at hl
    simp only [List.length_cons, List.length_append] at hl
    omega

end RedstoneOS.Library.ParentChain
