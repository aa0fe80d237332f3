import RedstoneOS.BlinkEntries

namespace RedstoneOS.BlinkList

open Blink BlinkEntries Library.LinkedList Library.Runs

abbrev Both := Option State × Board

def stepBoth (r : Both) (c : Call) : Both := (r.1.bind fun s => step s c, r.2.step c)

def begin (vmem : Nat → UInt8) : Both := (some (start vmem), ⟨[], vmem⟩)

/-- The list is finite, of different nodes, holds these entries, and every call that walks
over it returns. -/
structure Holds (s : State) (nodes : List Nat) (entries : List Entry) : Prop where
  linked : Linked (links s) none nodes
  nodup : nodes.Nodup
  inside : ∀ i ∈ nodes, i < cells
  entries : nodes.map (entryOf s) = entries
  returns : ∀ c, ∃ s', step s c = some s'

def ListRight (r : Both) : Prop := ∃ s nodes, r.1 = some s ∧ Holds s nodes r.2.entries

def Keeps (r : Both) (c : Call) : Prop := ∀ s, r.1 = some s → KeepsListed s c

def Simulates (r : Both) : Prop := ∃ s nodes, r.1 = some s ∧ Represents s nodes r.2

variable {r : Both} {c : Call} {s : State} {nodes : List Nat} {a : Board}

theorem simulates_begin (vmem : Nat → UInt8) : Simulates (begin vmem) :=
  ⟨start vmem, [], rfl, represents_start vmem⟩

theorem simulates_step (h : Simulates r) (hkeep : Keeps r c) : Simulates (stepBoth r c) := by
  obtain ⟨s, nodes, hs, hrep⟩ := h
  obtain ⟨s', nodes', hstep, hrep'⟩ := represents_step hrep c (hkeep s hs)
  exact ⟨s', nodes', by rw [stepBoth, hs, Option.bind_some, hstep], hrep'⟩

theorem step_returns (h : Represents s nodes a) (c : Call) : ∃ s', step s c = some s' := by
  cases c with
  | add user => exact ⟨_, rfl⟩
  | remove arg =>
    obtain ⟨value, s', -, hcall, -⟩ := represents_remove h arg
    exact ⟨s', by rw [step, hcall, Option.map_some]⟩
  | sync arg =>
    obtain ⟨value, s', hcall, -⟩ := represents_sync h arg
    exact ⟨s', by rw [step, hcall, Option.map_some]⟩
  | tasklet =>
    obtain ⟨s', hcall, -⟩ := represents_tasklet h
    exact ⟨s', hcall⟩

theorem listRight_of_simulates (h : Simulates r) : ListRight r := by
  obtain ⟨s, nodes, hs, hrep⟩ := h
  exact ⟨s, nodes, hs, hrep.linked, hrep.linked.nodup, hrep.inside, hrep.entries, step_returns hrep⟩

theorem not_listRight_of_reuse (h : Simulates r) (hkeep : ¬ Keeps r c) : ¬ ListRight (stepBoth r c) := by
  obtain ⟨s, nodes, hs, hrep⟩ := h
  have hreuse : ¬ KeepsListed s c := by
    intro hs'
    apply hkeep
    intro s'' hs''
    rwa [← Option.some.inj (hs.symm.trans hs'')]
  cases c with
  | add user =>
    obtain ⟨hloc, i, hm, hi⟩ := malloc_listed hrep hreuse
    rintro ⟨s', nodes', hs', hholds⟩
    rw [stepBoth, hs] at hs'
    obtain rfl := Option.some.inj hs'
    have hlinked := hholds.linked
    rw [(addsNode hloc hm).links] at hlinked
    exact not_linked_push hrep.linked hi hlinked
  | remove arg => exact absurd trivial hreuse
  | sync arg => exact absurd trivial hreuse
  | tasklet => exact absurd trivial hreuse

/-- The list is right through all calls exactly when no ADD finds a listed entry with
location 0 before the first free node. -/
theorem list_right_iff (vmem : Nat → UInt8) (calls : List Call) :
    (∀ pre, pre <+: calls → ListRight (run stepBoth (begin vmem) pre)) ↔
      Along stepBoth Keeps (begin vmem) calls := by
  apply observed_iff_along (J := Simulates) (D := fun _ _ => True)
  · exact fun _ _ h _ hkeep => simulates_step h hkeep
  · exact fun _ h => listRight_of_simulates h
  · exact fun _ _ h _ hkeep => not_listRight_of_reuse h hkeep
  · exact simulates_begin vmem
  · exact along_of_forall (fun _ _ => trivial) _ calls

def star (location : UInt16) : BlinkStruct := ⟨⟨location, 42, 32, 7, 6, 0, 0⟩, none⟩

/-- An entry in the corner of the screen, and another one: both get the first node. -/
theorem corner_reused : ¬ ∀ pre, pre <+: [Call.add (star 0), .add (star 5)] →
    ListRight (run stepBoth (begin fun _ => 0) pre) := by
  intro h
  obtain ⟨s, nodes, hs, hholds⟩ := h _ (List.prefix_refl _)
  have hlinks : (run stepBoth (begin fun _ => 0) [Call.add (star 0), .add (star 5)]).1.map
      (fun s => (links s none, links s (some 0))) = some (some 0, some 0) := by
    decide +kernel
  rw [hs, Option.map_some] at hlinks
  obtain ⟨hhead, hnode⟩ := Prod.mk.inj (Option.some.inj hlinks)
  refine not_linked_of_closed (S := fun d => d = none ∨ d = some 0) (Or.inl rfl) ?_ hholds.linked
  rintro d (rfl | rfl)
  · exact ⟨0, hhead, Or.inr rfl⟩
  · exact ⟨0, hnode, Or.inr rfl⟩

end RedstoneOS.BlinkList
