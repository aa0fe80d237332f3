import RedstoneOS.Blink
import RedstoneOS.Library.Runs
import Mathlib.Data.List.Perm.Subperm

namespace RedstoneOS.BlinkEntries

open Blink Library.LinkedList

/-- What the fish program keeps, without nodes and pointers: the entries that have been added
and not removed, the newest first, and the screen that they are drawn on. -/
structure Board where
  entries : List Entry
  vmem : Nat → UInt8

def draw (c : UInt8) (e : Entry) (vmem : Nat → UInt8) : Nat → UInt8 :=
  Function.update vmem (screenOffset e.location) c

def modifyFirst (p : Entry → Bool) (f : Entry → Entry) : List Entry → List Entry
  | [] => []
  | e :: l => if p e then f e :: l else e :: modifyFirst p f l

def standsAt (location : UInt16) (e : Entry) : Bool := e.location = location

def added (e : Entry) : Entry := { e with status := 1, countdown := e.onLength }

def synced (src dst : Entry) : Entry :=
  { dst with
    onLength := src.onLength, offLength := src.offLength, countdown := src.countdown
    status := src.status }

def Due (e : Entry) : Prop := ¬ 0 < (e.countdown - 1).toInt16

instance (e : Entry) : Decidable (Due e) := inferInstanceAs (Decidable (¬ _))

def tick (e : Entry) : Entry :=
  if Due e then
    { e with
      countdown := if e.status &&& 1 = 0 then e.onLength else e.offLength
      status := e.status ^^^ 1 }
  else { e with countdown := e.countdown - 1 }

def tickScreen (vmem : Nat → UInt8) (e : Entry) : Nat → UInt8 :=
  if Due e then draw (if e.status &&& 1 = 0 then e.onChar else e.offChar) e vmem else vmem

def Board.add (e : Entry) (a : Board) : Board :=
  if cells ≤ e.location.toNat ∨ cells ≤ a.entries.length then a
  else ⟨added e :: a.entries, draw e.onChar e a.vmem⟩

def Board.remove (location : UInt16) (a : Board) : Board :=
  { a with entries := a.entries.eraseP (standsAt location) }

/-- The entry at `dst` takes over the rhythm of the entry at `src`. -/
def Board.sync (src dst : UInt16) (a : Board) : Board :=
  match a.entries.find? (standsAt src), a.entries.find? (standsAt dst) with
  | some e, some e' =>
    ⟨modifyFirst (standsAt dst) (synced e) a.entries, draw e'.offChar e' a.vmem⟩
  | _, _ => a

def Board.tick (a : Board) : Board :=
  ⟨a.entries.map BlinkEntries.tick, a.entries.foldl tickScreen a.vmem⟩

def syncSource (arg : UInt32) : UInt16 := (arg >>> 16).toUInt16

def syncTarget (arg : UInt32) : UInt16 := (arg &&& 0xFFFF).toUInt16

def Board.step (a : Board) : Call → Board
  | .add user => a.add user.toEntry
  | .remove arg => a.remove arg.toUInt16
  | .sync arg => a.sync (syncSource arg) (syncTarget arg)
  | .tasklet => a.tick

def entryOf (s : State) (i : Nat) : Entry := (s.blinkArray i).toEntry

/-- The nodes of the list hold the entries of the board, and the others are free. -/
structure Represents (s : State) (nodes : List Nat) (a : Board) : Prop where
  linked : Linked (links s) none nodes
  inside : ∀ i ∈ nodes, i < cells
  free : ∀ i, i < cells → i ∉ nodes → (entryOf s i).location = 0
  entries : nodes.map (entryOf s) = a.entries
  screen : s.vmem = a.vmem

variable {s s' : State} {nodes : List Nat} {a : Board} {i j : Nat} {b : BlinkStruct}

theorem length_le_cells (hnd : nodes.Nodup) (h : ∀ i ∈ nodes, i < cells) : nodes.length ≤ cells := by
  have hsub : nodes ⊆ List.range cells := fun i hi => List.mem_range.mpr (h i hi)
  have hle := (hnd.subperm hsub).length_le
  rwa [List.length_range] at hle

theorem nodes_length_le (h : Represents s nodes a) : nodes.length ≤ cells :=
  length_le_cells h.linked.nodup h.inside

theorem nodes_length_lt (h : Represents s nodes a) : nodes.length < walkBound :=
  Nat.lt_of_le_of_lt (nodes_length_le h) (Nat.lt_succ_self cells)

@[simp] theorem store_self (i : Nat) (b : BlinkStruct) (s : State) :
    (store i b s).blinkArray i = b := Function.update_self _ _ _

theorem store_other (h : j ≠ i) (b : BlinkStruct) (s : State) :
    (store i b s).blinkArray j = s.blinkArray j := Function.update_of_ne h _ _

@[simp] theorem store_vmem (i : Nat) (b : BlinkStruct) (s : State) : (store i b s).vmem = s.vmem := rfl

theorem entryOf_store_self (i : Nat) (b : BlinkStruct) (s : State) : entryOf (store i b s) i = b.toEntry := by
  rw [entryOf, store_self]

theorem entryOf_store_other (h : j ≠ i) (b : BlinkStruct) (s : State) :
    entryOf (store i b s) j = entryOf s j := by
  rw [entryOf, store_other h, entryOf]

theorem links_store (i : Nat) (b : BlinkStruct) (s : State) :
    links (store i b s) = Function.update (links s) (some i) b.next := by
  funext c
  cases c with
  | none => exact (Function.update_of_ne (by simp) _ _).symm
  | some j =>
    by_cases hj : j = i
    · rw [hj, Function.update_self, links, store_self]
    · rw [Function.update_of_ne (by simpa using hj), links, store_other hj, links]

theorem find_walk {ax : UInt16} {fuel : Nat} {c : Option Nat} (h : Linked (links s) c nodes)
    (hfuel : nodes.length < fuel) :
    findLoop ax s fuel (links s c) = some (nodes.find? fun i => standsAt ax (entryOf s i)) := by
  induction nodes generalizing c fuel with
  | nil =>
    cases fuel with
    | zero => cases hfuel
    | succ fuel =>
      have hnull : links s c = none := h
      rw [hnull, findLoop, List.find?_nil]
  | cons i nodes ih =>
    cases fuel with
    | zero => cases hfuel
    | succ fuel =>
      rw [h.1, findLoop]
      by_cases hi : (s.blinkArray i).location = ax
      · rw [if_pos hi, List.find?_cons_of_pos]
        exact decide_eq_true hi
      · rw [if_neg hi, List.find?_cons_of_neg (by simp [standsAt, entryOf, hi])]
        exact ih h.2 (by simpa using hfuel)

theorem find_helper (h : Represents s nodes a) (ax : UInt16) :
    mp1FindHelper ax s = some (nodes.find? fun i => standsAt ax (entryOf s i)) :=
  find_walk h.linked (nodes_length_lt h)

def Listed (s : State) (i : Nat) : Prop := ∃ nodes, Linked (links s) none nodes ∧ i ∈ nodes

theorem listed_iff (h : Linked (links s) none nodes) : Listed s i ↔ i ∈ nodes := by
  constructor
  · rintro ⟨nodes', h', hi⟩
    rwa [h.unique h']
  · exact fun hi => ⟨nodes, h, hi⟩

/-- Before an entry is added, each listed entry with location 0 lies behind a node that is
free. -/
def KeepsListed (s : State) : Call → Prop
  | .add user => user.location.toNat < cells → ∀ i, Listed s i → (entryOf s i).location = 0 →
    ∃ j, j < i ∧ ¬ Listed s j
  | _ => True

theorem malloc_spec : mp1Malloc s = some i ↔
    (entryOf s i).location = 0 ∧ i < cells ∧ ∀ j, j < i → (entryOf s j).location ≠ 0 := by
  rw [mp1Malloc, List.find?_range_eq_some]
  simp [entryOf]

theorem malloc_unlisted (h : Represents s nodes a) {user : BlinkStruct}
    (hloc : user.location.toNat < cells) (hkeep : KeepsListed s (.add user))
    (hm : mp1Malloc s = some i) : i ∉ nodes := by
  intro hi
  obtain ⟨hzero, hcell, hfirst⟩ := malloc_spec.mp hm
  obtain ⟨j, hj, hfree⟩ := hkeep hloc i ((listed_iff h.linked).mpr hi) hzero
  rw [listed_iff h.linked] at hfree
  exact hfirst j hj (h.free j (hj.trans hcell) hfree)

theorem malloc_listed (h : Represents s nodes a) {user : BlinkStruct}
    (hkeep : ¬ KeepsListed s (.add user)) :
    user.location.toNat < cells ∧ ∃ i, mp1Malloc s = some i ∧ i ∈ nodes := by
  simp only [KeepsListed, not_forall, not_exists, not_and, not_not] at hkeep
  obtain ⟨hloc, i, hi, hzero, hall⟩ := hkeep
  refine ⟨hloc, ?_⟩
  rw [listed_iff h.linked] at hi
  cases hm : mp1Malloc s with
  | none =>
    rw [mp1Malloc, List.find?_range_eq_none] at hm
    have hne := hm i (h.inside i hi)
    rw [entryOf] at hzero
    simp [hzero] at hne
  | some k =>
    refine ⟨k, rfl, ?_⟩
    obtain ⟨-, -, hfirst⟩ := malloc_spec.mp hm
    have hki : k ≤ i := by
      by_contra hlt
      exact hfirst i (by omega) hzero
    obtain rfl | hlt := Nat.eq_or_lt_of_le hki
    · exact hi
    · exact (listed_iff h.linked).mp (hall k hlt)

theorem malloc_none (h : Represents s nodes a) (hm : mp1Malloc s = none) : nodes.length = cells := by
  rw [mp1Malloc, List.find?_range_eq_none] at hm
  apply Nat.le_antisymm (nodes_length_le h)
  have hsub : List.range cells ⊆ nodes := by
    intro i hi
    by_contra hfree
    have hne := hm i (List.mem_range.mp hi)
    have hzero := h.free i (List.mem_range.mp hi) hfree
    rw [entryOf] at hzero
    simp [hzero] at hne
  have hle := (List.nodup_range.subperm hsub).length_le
  rwa [List.length_range] at hle

theorem mem_of_full (h : Represents s nodes a) (hfull : cells ≤ nodes.length) (hi : i < cells) :
    i ∈ nodes := by
  by_contra hout
  have hle := length_le_cells (List.nodup_cons.mpr ⟨hout, h.linked.nodup⟩) (by
    intro j hj
    obtain rfl | hj := List.mem_cons.mp hj
    · exact hi
    · exact h.inside j hj)
  rw [List.length_cons] at hle
  omega

theorem links_poke (c : UInt8) (x : Nat) (s : State) : links (mp1Poke c x s) = links s := by
  funext d
  cases d <;> rfl

structure AddsNode (user : BlinkStruct) (i : Nat) (s s' : State) : Prop where
  links : links s' = push (links s) i
  entry : entryOf s' i = added user.toEntry
  others : ∀ j, j ≠ i → entryOf s' j = entryOf s j
  screen : s'.vmem = draw user.onChar user.toEntry s.vmem

theorem addsNode {user : BlinkStruct} (hloc : user.location.toNat < cells)
    (hm : mp1Malloc s = some i) : AddsNode user i s (mp1IoctlAdd user s).2 := by
  have hadd : (mp1IoctlAdd user s).2 = mp1Poke user.onChar (screenOffset user.location)
      { store i ⟨added user.toEntry, s.mp1ListHead⟩ s with mp1ListHead := some i } := by
    rw [mp1IoctlAdd, if_neg (Nat.not_le.mpr hloc), hm]
    simp only [store, Function.update_idem, Function.update_self]
    rfl
  rw [hadd]
  refine ⟨?_, ?_, fun j hj => ?_, rfl⟩
  · rw [links_poke]
    funext c
    cases c with
    | none => exact (push_none _ _).symm
    | some j =>
      have hlinks := congrFun (links_store i ⟨added user.toEntry, s.mp1ListHead⟩ s) (some j)
      by_cases hj : j = i
      · rw [hj, push_self]
        rw [hj, Function.update_self] at hlinks
        exact hlinks
      · rw [push_other _ hj]
        rw [Function.update_of_ne (by simpa using hj)] at hlinks
        exact hlinks
  · exact entryOf_store_self i _ s
  · exact entryOf_store_other hj _ s

theorem represents_add (h : Represents s nodes a) (user : BlinkStruct)
    (hkeep : KeepsListed s (.add user)) :
    ∃ nodes', Represents (mp1IoctlAdd user s).2 nodes' (a.add user.toEntry) := by
  have hlen : a.entries.length = nodes.length := by rw [← h.entries, List.length_map]
  by_cases hloc : user.location.toNat < cells
  · cases hm : mp1Malloc s with
    | none =>
      have hfull := malloc_none h hm
      refine ⟨nodes, ?_⟩
      rw [mp1IoctlAdd, if_neg (Nat.not_le.mpr hloc), hm, Board.add, if_pos (Or.inr (by omega))]
      exact h
    | some i =>
      have hi := malloc_unlisted h hloc hkeep hm
      have hcell := (malloc_spec.mp hm).2.1
      have hroom : nodes.length < cells := by
        by_contra hfull
        exact hi (mem_of_full h (by omega) hcell)
      obtain ⟨hlinks, hentry, hothers, hscreen⟩ := addsNode hloc hm
      refine ⟨i :: nodes, ?_⟩
      rw [Board.add, if_neg (by omega)]
      refine ⟨?_, ?_, ?_, ?_, ?_⟩
      · rw [hlinks]
        exact h.linked.push hi
      · intro j hj
        obtain rfl | hj := List.mem_cons.mp hj
        · exact hcell
        · exact h.inside j hj
      · intro j hj hout
        rw [List.mem_cons, not_or] at hout
        rw [hothers j hout.1]
        exact h.free j hj hout.2
      · have hsame : ∀ j ∈ nodes, entryOf (mp1IoctlAdd user s).2 j = entryOf s j :=
          fun j hj => hothers j fun he => hi (he ▸ hj)
        rw [List.map_cons, hentry, List.map_congr_left hsame, ← h.entries]
      · rw [hscreen, h.screen]
  · refine ⟨nodes, ?_⟩
    rw [mp1IoctlAdd, if_pos (Nat.not_lt.mp hloc), Board.add, if_pos (Or.inl (Nat.not_lt.mp hloc))]
    exact h

theorem links_setLink (cell value : Option Nat) (s : State) :
    links (setLink cell value s) = Function.update (links s) cell value := by
  cases cell with
  | none =>
    funext c
    cases c with
    | none => rw [Function.update_self, links, setLink]
    | some j => rw [Function.update_of_ne (by simp), links, links, setLink]
  | some i => exact links_store i _ s

theorem entryOf_setLink (cell value : Option Nat) (s : State) (j : Nat) :
    entryOf (setLink cell value s) j = entryOf s j := by
  cases cell with
  | none => rfl
  | some i =>
    by_cases hj : j = i
    · rw [hj, setLink, entryOf_store_self]
      rfl
    · rw [setLink, entryOf_store_other hj]

theorem setLink_vmem (cell value : Option Nat) (s : State) : (setLink cell value s).vmem = s.vmem := by
  cases cell <;> rfl

theorem findPrev_walk {pre post : List Nat} {c : Option Nat} {fuel : Nat}
    (h : Linked (links s) c (pre ++ i :: post)) (hfuel : pre.length < fuel) :
    removeFindPrev i s fuel c = some (cellAfter c pre) := by
  induction pre generalizing c fuel with
  | nil =>
    cases fuel with
    | zero => cases hfuel
    | succ fuel => rw [removeFindPrev, if_pos h.1, cellAfter, List.foldl_nil]
  | cons k pre ih =>
    cases fuel with
    | zero => cases hfuel
    | succ fuel =>
      have hki : k ≠ i := by
        rintro rfl
        exact h.2.not_mem (by simp)
      rw [removeFindPrev, if_neg (by rw [h.1]; simpa using hki), if_neg (by rw [h.1]; simp), h.1]
      exact ih h.2 (by simpa using hfuel)

theorem find_entries (h : Represents s nodes a) (p : Entry → Bool) :
    a.entries.find? p = (nodes.find? fun i => p (entryOf s i)).map (entryOf s) := by
  rw [← h.entries, List.find?_map]
  rfl

theorem represents_free {pre post : List Nat} (h : Represents s (pre ++ i :: post) a) :
    Represents (mp1Free i (setLink (cellAfter none pre) (links s (some i)) s)) (pre ++ post)
      { a with entries := (pre ++ post).map (entryOf s) } := by
  have hnd := h.linked.nodup
  have hout : i ∉ pre ++ post := by
    rw [List.nodup_middle] at hnd
    exact (List.nodup_cons.mp hnd).1
  have hentry : ∀ j, j ≠ i →
      entryOf (mp1Free i (setLink (cellAfter none pre) (links s (some i)) s)) j = entryOf s j := by
    intro j hj
    rw [mp1Free, entryOf_store_other hj, entryOf_setLink]
  refine ⟨?_, ?_, ?_, ?_, ?_⟩
  · have hunlink := h.linked.unlink fun j _ => by simp
    rw [mp1Free, links_store, links_setLink]
    apply hunlink.congr
    · exact Function.update_of_ne (by simp) _ _
    · intro j hj
      apply Function.update_of_ne
      rintro ⟨⟩
      exact hout hj
  · intro j hj
    apply h.inside j
    obtain hj | hj := List.mem_append.mp hj
    · exact List.mem_append_left _ hj
    · exact List.mem_append_right _ (List.mem_cons_of_mem i hj)
  · intro j hcell hj
    by_cases hji : j = i
    · rw [hji, mp1Free, entryOf_store_self]
      rfl
    · rw [hentry j hji]
      apply h.free j hcell
      intro hmem
      obtain hmem | hmem := List.mem_append.mp hmem
      · exact hj (List.mem_append_left _ hmem)
      · exact hj (List.mem_append_right _ (List.mem_of_ne_of_mem hji hmem))
  · exact List.map_congr_left fun j hj => hentry j fun he => hout (he ▸ hj)
  · rw [mp1Free, store_vmem, setLink_vmem]
    exact h.screen

theorem represents_remove (h : Represents s nodes a) (arg : UInt32) :
    ∃ value s' nodes', mp1IoctlRemove arg s = some (value, s') ∧
      Represents s' nodes' (a.remove arg.toUInt16) := by
  have herase : a.entries.eraseP (standsAt arg.toUInt16) =
      (nodes.eraseP fun i => standsAt arg.toUInt16 (entryOf s i)).map (entryOf s) := by
    rw [← h.entries, List.eraseP_map]
    rfl
  have hhelper := find_helper h arg.toUInt16
  cases hfind : nodes.find? fun i => standsAt arg.toUInt16 (entryOf s i) with
  | none =>
    have hnone : ∀ i ∈ nodes, ¬ standsAt arg.toUInt16 (entryOf s i) = true := List.find?_eq_none.mp hfind
    refine ⟨-1, s, nodes, ?_, ?_⟩
    · rw [mp1IoctlRemove, hhelper, hfind]
      rfl
    · rw [List.eraseP_of_forall_not hnone, h.entries] at herase
      rw [Board.remove, herase]
      exact h
  | some i =>
    obtain ⟨hi, pre, post, rfl, hpre⟩ := List.find?_eq_some_iff_append.mp hfind
    have hpre' : ∀ j ∈ pre, ¬ standsAt arg.toUInt16 (entryOf s j) = true := by
      intro j hj
      simpa using hpre j hj
    have hlen := nodes_length_lt h
    rw [List.length_append] at hlen
    have hprev : removeFindPrev i s walkBound none = some (cellAfter none pre) :=
      findPrev_walk h.linked (by omega)
    rw [List.eraseP_append_right _ hpre', List.eraseP_cons_of_pos
      (p := fun i => standsAt arg.toUInt16 (entryOf s i)) hi] at herase
    refine ⟨0, mp1Free i (setLink (cellAfter none pre) (links s (some i)) s), pre ++ post, ?_, ?_⟩
    · simp only [mp1IoctlRemove, hhelper, hfind, Option.bind_eq_bind, Option.bind_some, hprev]
    · rw [Board.remove, herase]
      exact represents_free h

theorem cmovl_lowest (c onChar offChar : UInt8) : cmovl (c &&& 1) onChar offChar = offChar := by
  have hsf : (c &&& 1) &&& 0x80 = 0 := by
    rw [UInt8.and_assoc, show (1 : UInt8) &&& 0x80 = 0 from rfl, UInt8.and_zero]
  rw [cmovl, hsf]
  rfl

theorem links_syncCopy (i j : Nat) (s : State) : links (syncCopy i j s) = links s := by
  rw [syncCopy, links_poke, links_store]
  exact Function.update_eq_self _ _

theorem entryOf_syncCopy_self (i j : Nat) (s : State) :
    entryOf (syncCopy i j s) j = synced (entryOf s i) (entryOf s j) := entryOf_store_self j _ s

theorem entryOf_syncCopy_other {k : Nat} (h : k ≠ j) (i : Nat) (s : State) :
    entryOf (syncCopy i j s) k = entryOf s k := entryOf_store_other h _ s

theorem syncCopy_vmem (i j : Nat) (s : State) :
    (syncCopy i j s).vmem = draw (entryOf s j).offChar (entryOf s j) s.vmem := by
  simp only [syncCopy, mp1Poke, store_self, cmovl_lowest]
  rfl

theorem map_modifyFirst {f f' : Nat → Entry} {p : Entry → Bool} {g : Entry → Entry}
    (hnd : nodes.Nodup) (hfind : nodes.find? (fun i => p (f i)) = some j) (hself : f' j = g (f j))
    (hothers : ∀ k, k ≠ j → f' k = f k) : nodes.map f' = modifyFirst p g (nodes.map f) := by
  induction nodes with
  | nil => cases hfind
  | cons k nodes ih =>
    obtain ⟨hk, hnd⟩ := List.nodup_cons.mp hnd
    rw [List.map_cons, List.map_cons, modifyFirst]
    by_cases hp : p (f k)
    · rw [List.find?_cons_of_pos (p := fun i => p (f i)) hp] at hfind
      obtain rfl := Option.some.inj hfind
      rw [if_pos hp, hself]
      congr 1
      exact List.map_congr_left fun l hl => hothers l fun he => hk (he ▸ hl)
    · rw [List.find?_cons_of_neg (p := fun i => p (f i)) hp] at hfind
      have hkj : k ≠ j := by
        rintro rfl
        exact hk (List.mem_of_find?_eq_some hfind)
      rw [if_neg hp, hothers k hkj, ih hnd hfind]

theorem represents_sync (h : Represents s nodes a) (arg : UInt32) :
    ∃ value s', mp1IoctlSync arg s = some (value, s') ∧
      Represents s' nodes (a.sync (syncSource arg) (syncTarget arg)) := by
  have hsrc := find_entries h (standsAt (syncSource arg))
  have hdst := find_entries h (standsAt (syncTarget arg))
  have hhelper := find_helper h (syncSource arg)
  have hhelper' := find_helper h (syncTarget arg)
  rw [syncSource] at hhelper
  rw [syncTarget] at hhelper'
  cases hi : nodes.find? fun i => standsAt (syncSource arg) (entryOf s i) with
  | none =>
    rw [hi, Option.map_none] at hsrc
    refine ⟨-1, s, ?_, ?_⟩
    · rw [mp1IoctlSync, hhelper]
      rw [syncSource] at hi
      rw [hi]
      rfl
    · rw [Board.sync, hsrc]
      exact h
  | some i =>
    rw [hi, Option.map_some] at hsrc
    rw [syncSource] at hi
    cases hj : nodes.find? fun i => standsAt (syncTarget arg) (entryOf s i) with
    | none =>
      rw [hj, Option.map_none] at hdst
      refine ⟨-1, s, ?_, ?_⟩
      · rw [syncTarget] at hj
        simp only [mp1IoctlSync, hhelper, hi, hhelper', hj]
        rfl
      · rw [Board.sync, hsrc, hdst]
        exact h
    | some j =>
      rw [hj, Option.map_some] at hdst
      refine ⟨0, syncCopy i j s, ?_, ?_⟩
      · rw [syncTarget] at hj
        simp only [mp1IoctlSync, hhelper, hi, hhelper', hj]
        rfl
      · have hmem : j ∈ nodes := List.mem_of_find?_eq_some hj
        rw [Board.sync, hsrc, hdst]
        refine ⟨?_, h.inside, ?_, ?_, ?_⟩
        · rw [links_syncCopy]
          exact h.linked
        · intro k hcell hk
          have hkj : k ≠ j := by
            rintro rfl
            exact hk hmem
          rw [entryOf_syncCopy_other hkj]
          exact h.free k hcell hk
        · rw [← h.entries]
          exact map_modifyFirst h.linked.nodup hj (entryOf_syncCopy_self i j s)
            fun k hk => entryOf_syncCopy_other hk i s
        · rw [syncCopy_vmem, h.screen]

theorem taskletNode_eq (i : Nat) (s : State) : taskletNode i s =
    { store i ⟨tick (entryOf s i), (s.blinkArray i).next⟩ s with
      vmem := tickScreen s.vmem (entryOf s i) } := by
  by_cases hdue : Due (entryOf s i)
  · have hexpired : ¬ 0 < ((s.blinkArray i).countdown - 1).toInt16 := hdue
    rw [tick, if_pos hdue, tickScreen, if_pos hdue]
    by_cases hoff : (entryOf s i).status &&& 1 = 0
    · have htest : (s.blinkArray i).status &&& 1 = 0 := hoff
      rw [if_pos hoff, if_pos hoff]
      simp only [taskletNode, if_neg hexpired, if_pos htest]
      rfl
    · have htest : ¬ (s.blinkArray i).status &&& 1 = 0 := hoff
      rw [if_neg hoff, if_neg hoff]
      simp only [taskletNode, if_neg hexpired, if_neg htest]
      rfl
  · have hrunning : 0 < ((s.blinkArray i).countdown - 1).toInt16 := not_not.mp hdue
    rw [tick, if_neg hdue, tickScreen, if_neg hdue]
    simp only [taskletNode, if_pos hrunning]
    rfl

theorem links_taskletNode (i : Nat) (s : State) : links (taskletNode i s) = links s := by
  rw [taskletNode_eq]
  have hlinks := links_store i ⟨tick (entryOf s i), (s.blinkArray i).next⟩ s
  have hsame : Function.update (links s) (some i) (s.blinkArray i).next = links s :=
    Function.update_eq_self _ _
  rw [hsame] at hlinks
  rw [← hlinks]
  funext c
  cases c <;> rfl

theorem entryOf_taskletNode_self (i : Nat) (s : State) :
    entryOf (taskletNode i s) i = tick (entryOf s i) := by
  rw [taskletNode_eq]
  exact entryOf_store_self i _ s

theorem entryOf_taskletNode_other (h : j ≠ i) (s : State) :
    entryOf (taskletNode i s) j = entryOf s j := by
  rw [taskletNode_eq]
  exact entryOf_store_other h _ s

structure Ticked (nodes : List Nat) (s s' : State) : Prop where
  links : links s' = links s
  listed : ∀ i ∈ nodes, entryOf s' i = tick (entryOf s i)
  others : ∀ i, i ∉ nodes → entryOf s' i = entryOf s i
  screen : s'.vmem = (nodes.map (entryOf s)).foldl tickScreen s.vmem

theorem tasklet_walk {fuel : Nat} {c : Option Nat} (h : Linked (links s) c nodes)
    (hfuel : nodes.length < fuel) :
    ∃ s', taskletLoop fuel (links s c) s = some s' ∧ Ticked nodes s s' := by
  induction nodes generalizing s c fuel with
  | nil =>
    cases fuel with
    | zero => cases hfuel
    | succ fuel =>
      have hnull : links s c = none := h
      rw [hnull]
      exact ⟨s, rfl, rfl, fun i hi => absurd hi List.not_mem_nil, fun _ _ => rfl, rfl⟩
  | cons i nodes ih =>
    cases fuel with
    | zero => cases hfuel
    | succ fuel =>
      have hi := h.2.not_mem
      have hlinks := links_taskletNode i s
      have hrest : Linked (links (taskletNode i s)) (some i) nodes := by
        rw [hlinks]
        exact h.2
      obtain ⟨s', hloop, hticked⟩ := ih hrest (by simpa using hfuel)
      have hsame : ∀ j, j ≠ i → entryOf (taskletNode i s) j = entryOf s j :=
        fun j hj => entryOf_taskletNode_other hj s
      refine ⟨s', ?_, hticked.links.trans hlinks, ?_, ?_, ?_⟩
      · rw [h.1, taskletLoop]
        exact hloop
      · intro j hj
        obtain rfl | hj := List.mem_cons.mp hj
        · rw [hticked.others j hi, entryOf_taskletNode_self]
        · rw [hticked.listed j hj, hsame j (fun he => hi (he ▸ hj))]
      · intro j hj
        rw [List.mem_cons, not_or] at hj
        rw [hticked.others j hj.2, hsame j hj.1]
      · have hmap : nodes.map (entryOf (taskletNode i s)) = nodes.map (entryOf s) :=
          List.map_congr_left fun j hj => hsame j fun he => hi (he ▸ hj)
        rw [hticked.screen, hmap, List.map_cons, List.foldl_cons, taskletNode_eq]

theorem represents_tasklet (h : Represents s nodes a) :
    ∃ s', mp1RtcTasklet s = some s' ∧ Represents s' nodes a.tick := by
  obtain ⟨s', hloop, hticked⟩ := tasklet_walk h.linked (nodes_length_lt h)
  refine ⟨s', hloop, ?_, h.inside, ?_, ?_, ?_⟩
  · rw [hticked.links]
    exact h.linked
  · intro i hcell hi
    rw [hticked.others i hi]
    exact h.free i hcell hi
  · rw [Board.tick, ← h.entries, List.map_map]
    exact List.map_congr_left fun i hi => hticked.listed i hi
  · rw [hticked.screen, h.entries, h.screen, Board.tick]

/-- Every call returns, and leaves the board's list unless it takes a listed node for free. -/
theorem represents_step (h : Represents s nodes a) (c : Call) (hkeep : KeepsListed s c) :
    ∃ s' nodes', step s c = some s' ∧ Represents s' nodes' (a.step c) := by
  cases c with
  | add user =>
    obtain ⟨nodes', hadd⟩ := represents_add h user hkeep
    exact ⟨_, nodes', rfl, hadd⟩
  | remove arg =>
    obtain ⟨value, s', nodes', hcall, hremove⟩ := represents_remove h arg
    exact ⟨s', nodes', by rw [step, hcall, Option.map_some], hremove⟩
  | sync arg =>
    obtain ⟨value, s', hcall, hsync⟩ := represents_sync h arg
    exact ⟨s', nodes, by rw [step, hcall, Option.map_some], hsync⟩
  | tasklet =>
    obtain ⟨s', hcall, htick⟩ := represents_tasklet h
    exact ⟨s', nodes, hcall, htick⟩

theorem represents_start (vmem : Nat → UInt8) : Represents (start vmem) [] ⟨[], vmem⟩ where
  linked := rfl
  inside _ hi := absurd hi List.not_mem_nil
  free _ _ _ := rfl
  entries := rfl
  screen := rfl

end RedstoneOS.BlinkEntries
