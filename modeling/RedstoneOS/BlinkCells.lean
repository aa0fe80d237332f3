import RedstoneOS.BlinkScreen

namespace RedstoneOS.BlinkCells

open Blink BlinkEntries BlinkList BlinkScreen Library.LinkedList Library.Runs

structure Cell where
  entry : Option Entry
  char : UInt8

/-- The screen as cells that know nothing of each other, but for SYNC. -/
abbrev Cells := UInt16 → Cell

def Cell.tick (c : Cell) : Cell :=
  match c.entry with
  | none => c
  | some e => ⟨some (BlinkEntries.tick e),
      if Due e then (if e.status &&& 1 = 0 then e.onChar else e.offChar) else c.char⟩

def Cells.add (e : Entry) (s : Cells) : Cells :=
  if cells ≤ e.location.toNat then s
  else Function.update s e.location ⟨some (added e), e.onChar⟩

def Cells.remove (location : UInt16) (s : Cells) : Cells :=
  Function.update s location ⟨none, (s location).char⟩

def Cells.sync (src dst : UInt16) (s : Cells) : Cells :=
  match (s src).entry, (s dst).entry with
  | some e, some e' => Function.update s dst ⟨some (synced e e'), e'.offChar⟩
  | _, _ => s

def Cells.step (s : Cells) : Call → Cells
  | .add user => s.add user.toEntry
  | .remove arg => s.remove arg.toUInt16
  | .sync arg => s.sync (syncSource arg) (syncTarget arg)
  | .tasklet => fun location => (s location).tick

/-- An ADD goes to a cell of the screen that is not the first one and where nothing blinks. -/
def NewCell (s : Cells) : Call → Prop
  | .add user => user.location.toNat < cells → user.location ≠ 0 ∧ (s user.location).entry = none
  | _ => True

def blank (vmem : Nat → UInt8) : Cells := fun location => ⟨none, vmem (screenOffset location)⟩

def cellsOf (a : Board) : Cells :=
  fun location => ⟨a.entries.find? (standsAt location), a.vmem (screenOffset location)⟩

def OffScreen (x : Nat) : Prop := ∀ location : UInt16, location.toNat < cells → screenOffset location ≠ x

structure Tidy (old : Nat → UInt8) (a : Board) : Prop where
  inside : ∀ e ∈ a.entries, e.location.toNat < cells
  nonzero : ∀ e ∈ a.entries, e.location ≠ 0
  apart : a.entries.Pairwise Apart
  outside : ∀ x, OffScreen x → a.vmem x = old x

variable {old vmem : Nat → UInt8} {a : Board} {e e' : Entry} {l : List Entry} {location : UInt16}
  {c : Call} {s : State} {nodes : List Nat}

theorem tidy_room (h : Tidy old a) : a.entries.length < cells := by
  have hnd : (0 :: a.entries.map fun e => e.location.toNat).Nodup := by
    refine List.nodup_cons.mpr ⟨fun h0 => ?_, ?_⟩
    · obtain ⟨e, he, hzero⟩ := List.mem_map.mp h0
      exact h.nonzero e he (UInt16.toNat_inj.mp hzero)
    · apply List.pairwise_map.mpr
      exact h.apart.imp fun hne heq => hne (UInt16.toNat_inj.mp heq)
  have hle := length_le_cells hnd (by
    intro i hi
    obtain rfl | hi := List.mem_cons.mp hi
    · decide
    · obtain ⟨e, he, rfl⟩ := List.mem_map.mp hi
      exact h.inside e he)
  rw [List.length_cons, List.length_map] at hle
  exact hle

theorem draw_offScreen {x : Nat} (hx : OffScreen x) (he : e.location.toNat < cells) (ch : UInt8)
    (vmem : Nat → UInt8) : draw ch e vmem x = vmem x :=
  Function.update_of_ne (hx e.location he).symm _ _

theorem draw_at (ch : UInt8) (e : Entry) (vmem : Nat → UInt8) (location : UInt16) :
    draw ch e vmem (screenOffset location) =
      if location = e.location then ch else vmem (screenOffset location) := by
  by_cases hl : location = e.location
  · rw [if_pos hl, hl, draw_self]
  · rw [if_neg hl, draw, Function.update_of_ne fun he => hl (screenOffset_inj.mp he)]

theorem find_none_iff : l.find? (standsAt location) = none ↔ ∀ e ∈ l, e.location ≠ location := by
  simp only [List.find?_eq_none, standsAt_iff, ne_eq]

theorem find_map {g : Entry → Entry} (hg : ∀ e, (g e).location = e.location) :
    (l.map g).find? (standsAt location) = (l.find? (standsAt location)).map g := by
  have hp : standsAt location ∘ g = standsAt location := by
    funext e
    simp only [Function.comp, standsAt, hg]
  rw [List.find?_map, hp]

theorem tickScreen_at (e : Entry) (vmem : Nat → UInt8) :
    tickScreen vmem e (screenOffset e.location) =
      if Due e then (if e.status &&& 1 = 0 then e.onChar else e.offChar)
      else vmem (screenOffset e.location) := by
  rw [tickScreen]
  split
  · exact draw_self _ e vmem
  · rfl

theorem ticks_at (h : l.Pairwise Apart) (he : e ∈ l) (vmem : Nat → UInt8) :
    l.foldl tickScreen vmem (screenOffset e.location) =
      tickScreen vmem e (screenOffset e.location) := by
  induction l generalizing vmem with
  | nil => cases he
  | cons x l ih =>
    obtain ⟨hx, hl⟩ := List.pairwise_cons.mp h
    rw [List.foldl_cons]
    obtain rfl | he := List.mem_cons.mp he
    · exact ticks_other hx _
    · rw [ih hl he, tickScreen_at, tickScreen_at, tickScreen_other (hx e he).symm]

theorem ticks_offScreen {x : Nat} (hx : OffScreen x) (h : ∀ e ∈ l, e.location.toNat < cells)
    (vmem : Nat → UInt8) : l.foldl tickScreen vmem x = vmem x := by
  induction l generalizing vmem with
  | nil => rfl
  | cons e l ih =>
    rw [List.foldl_cons, ih fun y hy => h y (List.mem_cons_of_mem e hy), tickScreen]
    split
    · exact draw_offScreen hx (h e List.mem_cons_self) _ _
    · rfl

theorem cells_tick (h : Tidy old a) : cellsOf a.tick = fun location => (cellsOf a location).tick := by
  funext location
  have hfind : (a.entries.map BlinkEntries.tick).find? (standsAt location) =
      (a.entries.find? (standsAt location)).map BlinkEntries.tick := find_map tick_location
  cases hat : a.entries.find? (standsAt location) with
  | none =>
    have hno : ∀ x ∈ a.entries, location ≠ x.location :=
      fun x hx => (find_none_iff.mp hat x hx).symm
    have hchar : a.entries.foldl tickScreen a.vmem (screenOffset location) =
        a.vmem (screenOffset location) :=
      ticks_other (e := ⟨location, 0, 0, 0, 0, 0, 0⟩) hno a.vmem
    rw [hat] at hfind
    simp only [cellsOf, Board.tick, hfind, hat, hchar, Cell.tick, Option.map_none]
  | some e =>
    obtain rfl := standsAt_iff.mp (List.find?_some hat)
    have hchar := ticks_at h.apart (List.mem_of_find?_eq_some hat) a.vmem
    rw [hat] at hfind
    simp only [cellsOf, Board.tick, hfind, hat, hchar, Cell.tick, Option.map_some, tickScreen_at]

theorem cells_add (h : Tidy old a) (e : Entry) : cellsOf (a.add e) = (cellsOf a).add e := by
  have hroom := Nat.not_le.mpr (tidy_room h)
  rw [Board.add, Cells.add]
  by_cases hloc : cells ≤ e.location.toNat
  · rw [if_pos (Or.inl hloc), if_pos hloc]
  · rw [if_neg (not_or.mpr ⟨hloc, hroom⟩), if_neg hloc]
    funext location
    by_cases hl : location = e.location
    · subst hl
      rw [Function.update_self]
      exact congrArg₂ Cell.mk (List.find?_cons_of_pos (standsAt_iff.mpr rfl)) (draw_self _ e _)
    · have hno : ¬ standsAt location (added e) = true := fun hs => hl (standsAt_iff.mp hs).symm
      rw [Function.update_of_ne hl, cellsOf, cellsOf, List.find?_cons_of_neg hno]
      simp only [draw_at, if_neg hl]

theorem find_eraseP (h : l.Pairwise Apart) (location location' : UInt16) :
    (l.eraseP (standsAt location)).find? (standsAt location') =
      if location' = location then none else l.find? (standsAt location') := by
  induction l with
  | nil => simp
  | cons e l ih =>
    obtain ⟨he, hl⟩ := List.pairwise_cons.mp h
    by_cases hat : standsAt location e = true
    · obtain rfl := standsAt_iff.mp hat
      rw [List.eraseP_cons_of_pos hat]
      by_cases hsame : location' = e.location
      · rw [if_pos hsame, hsame, find_none_iff]
        exact fun x hx => (he x hx).symm
      · have hno : ¬ standsAt location' e = true := fun hs => hsame (standsAt_iff.mp hs).symm
        rw [if_neg hsame, List.find?_cons_of_neg hno]
    · rw [List.eraseP_cons_of_neg hat]
      by_cases hat' : standsAt location' e = true
      · have hne : location' ≠ location := by
          rintro rfl
          exact hat hat'
        rw [List.find?_cons_of_pos hat', if_neg hne, List.find?_cons_of_pos hat']
      · rw [List.find?_cons_of_neg hat', List.find?_cons_of_neg hat', ih hl]

theorem cells_remove (h : Tidy old a) (location : UInt16) :
    cellsOf (a.remove location) = (cellsOf a).remove location := by
  funext location'
  rw [cellsOf, Board.remove, find_eraseP h.apart, Cells.remove]
  by_cases hl : location' = location
  · rw [if_pos hl, hl, Function.update_self]
    rfl
  · rw [if_neg hl, Function.update_of_ne hl]
    rfl

theorem cells_synced (h : Tidy old a) {dst : UInt16} (e : Entry)
    (hdst : a.entries.find? (standsAt dst) = some e') :
    cellsOf ⟨modifyFirst (standsAt dst) (synced e) a.entries, draw e'.offChar e' a.vmem⟩ =
      Function.update (cellsOf a) dst ⟨some (synced e e'), e'.offChar⟩ := by
  have hdst' := standsAt_iff.mp (List.find?_some hdst)
  have hfind (location : UInt16) : (modifyFirst (standsAt dst) (synced e) a.entries).find?
      (standsAt location) = (a.entries.find? (standsAt location)).map
        fun x => if standsAt dst x then synced e x else x := by
    rw [modifyFirst_eq_map h.apart, find_map (fun x => by split <;> rfl)]
  funext location
  simp only [cellsOf, hfind, draw_at, hdst']
  by_cases hl : location = dst
  · rw [hl, Function.update_self, if_pos rfl, hdst, Option.map_some, if_pos (List.find?_some hdst)]
  · rw [Function.update_of_ne hl, if_neg hl]
    congr 1
    cases hat : a.entries.find? (standsAt location) with
    | none => rfl
    | some x =>
      have hno : ¬ standsAt dst x = true := fun hs =>
        hl ((standsAt_iff.mp (List.find?_some hat)).symm.trans (standsAt_iff.mp hs))
      rw [Option.map_some, if_neg hno]

theorem cells_sync (h : Tidy old a) (src dst : UInt16) :
    cellsOf (a.sync src dst) = (cellsOf a).sync src dst := by
  have hsrc' : (cellsOf a src).entry = a.entries.find? (standsAt src) := rfl
  have hdst' : (cellsOf a dst).entry = a.entries.find? (standsAt dst) := rfl
  rw [Board.sync, Cells.sync, hsrc', hdst']
  cases a.entries.find? (standsAt src) with
  | none => rfl
  | some e =>
    cases hdst : a.entries.find? (standsAt dst) with
    | none => rfl
    | some e' => exact cells_synced h e hdst

theorem cells_step (h : Tidy old a) (c : Call) : cellsOf (a.step c) = (cellsOf a).step c := by
  cases c with
  | add user => exact cells_add h user.toEntry
  | remove arg => exact cells_remove h arg.toUInt16
  | sync arg => exact cells_sync h _ _
  | tasklet => exact cells_tick h

/-- The program and the cells that it stands for. -/
def Mirrors (old : Nat → UInt8) (s : State) (t : Cells) : Prop :=
  ∃ nodes a, Represents s nodes a ∧ Tidy old a ∧ cellsOf a = t

variable {t : Cells}

theorem tidy_add (h : Tidy old a) (hnew : e.location.toNat < cells → e.location ≠ 0 ∧
    ∀ x ∈ a.entries, x.location ≠ e.location) : Tidy old (a.add e) := by
  rw [Board.add]
  split
  · exact h
  · next hroom =>
    have hloc := Nat.not_le.mp (not_or.mp hroom).1
    obtain ⟨h0, hother⟩ := hnew hloc
    refine ⟨?_, ?_, ?_, fun x hx => ?_⟩
    · exact List.forall_mem_cons.mpr ⟨hloc, h.inside⟩
    · exact List.forall_mem_cons.mpr ⟨h0, h.nonzero⟩
    · exact List.pairwise_cons.mpr ⟨fun x hx => (hother x hx).symm, h.apart⟩
    · exact (draw_offScreen hx hloc _ _).trans (h.outside x hx)

theorem tidy_remove (h : Tidy old a) (location : UInt16) : Tidy old (a.remove location) := by
  have hsub : (a.entries.eraseP (standsAt location)).Sublist a.entries := List.eraseP_sublist
  exact ⟨fun x hx => h.inside x (hsub.subset hx), fun x hx => h.nonzero x (hsub.subset hx),
    h.apart.sublist hsub, h.outside⟩

theorem tidy_map (h : Tidy old a) {g : Entry → Entry} (hg : ∀ e, (g e).location = e.location)
    (hscreen : ∀ x, OffScreen x → vmem x = a.vmem x) : Tidy old ⟨a.entries.map g, vmem⟩ where
  inside x hx := by
    obtain ⟨e, he, rfl⟩ := List.mem_map.mp hx
    rw [hg]
    exact h.inside e he
  nonzero x hx := by
    obtain ⟨e, he, rfl⟩ := List.mem_map.mp hx
    rw [hg]
    exact h.nonzero e he
  apart := apart_map h.apart hg
  outside x hx := (hscreen x hx).trans (h.outside x hx)

theorem tidy_sync (h : Tidy old a) (src dst : UInt16) : Tidy old (a.sync src dst) := by
  rw [Board.sync]
  split
  · next e e' hsrc hdst =>
    have hinside := h.inside e' (List.mem_of_find?_eq_some hdst)
    rw [modifyFirst_eq_map h.apart]
    apply tidy_map h
    · intro x
      split <;> rfl
    · exact fun x hx => draw_offScreen hx hinside _ _
  · exact h

theorem tidy_step (h : Tidy old a) (hnew : NewCell (cellsOf a) c) : Tidy old (a.step c) := by
  cases c with
  | add user =>
    refine tidy_add h fun hloc => ?_
    obtain ⟨h0, hfree⟩ := hnew hloc
    exact ⟨h0, find_none_iff.mp hfree⟩
  | remove arg => exact tidy_remove h arg.toUInt16
  | sync arg => exact tidy_sync h _ _
  | tasklet => exact tidy_map h tick_location fun x hx => ticks_offScreen hx h.inside a.vmem

theorem keepsListed_of_tidy (hrep : Represents s nodes a) (h : Tidy old a) (c : Call) :
    KeepsListed s c := by
  cases c with
  | add user =>
    intro _ i hi hzero
    rw [listed_iff hrep.linked] at hi
    have hmem : entryOf s i ∈ a.entries := hrep.entries ▸ List.mem_map_of_mem hi
    exact absurd hzero (h.nonzero _ hmem)
  | remove arg => trivial
  | sync arg => trivial
  | tasklet => trivial

theorem mirrors_start (vmem : Nat → UInt8) : Mirrors vmem (start vmem) (blank vmem) := by
  refine ⟨[], ⟨[], vmem⟩, represents_start vmem, ⟨?_, ?_, List.Pairwise.nil, fun _ _ => rfl⟩, rfl⟩
  · exact fun e he => absurd he List.not_mem_nil
  · exact fun e he => absurd he List.not_mem_nil

/-- Every call returns and does to the cells what the cells do by themselves. -/
theorem mirrors_step (h : Mirrors old s t) (hnew : NewCell t c) :
    ∃ s', Blink.step s c = some s' ∧ Mirrors old s' (t.step c) := by
  obtain ⟨nodes, a, hrep, htidy, rfl⟩ := h
  obtain ⟨s', nodes', hstep, hrep'⟩ := represents_step hrep c (keepsListed_of_tidy hrep htidy c)
  exact ⟨s', hstep, nodes', a.step c, hrep', tidy_step htidy hnew, cells_step htidy c⟩

theorem Mirrors.char (h : Mirrors old s t) (location : UInt16) :
    s.vmem (screenOffset location) = (t location).char := by
  obtain ⟨nodes, a, hrep, -, rfl⟩ := h
  rw [hrep.screen]
  rfl

theorem Mirrors.outside (h : Mirrors old s t) {x : Nat} (hx : OffScreen x) : s.vmem x = old x := by
  obtain ⟨nodes, a, hrep, htidy, -⟩ := h
  rw [hrep.screen, htidy.outside x hx]

/-- Both lengths of an entry are at least one tick, and small enough for a signed countdown. -/
structure Rhythmic (e : Entry) : Prop where
  on : 0 < e.onLength.toNat ∧ e.onLength.toNat ≤ 32768
  off : 0 < e.offLength.toNat ∧ e.offLength.toNat ≤ 32768

def period (e : Entry) : Nat := e.onLength.toNat + e.offLength.toNat

def On (e : Entry) (n : Nat) : Prop := n % period e < e.onLength.toNat

instance (e : Entry) (n : Nat) : Decidable (On e n) := inferInstanceAs (Decidable (_ < _))

def remaining (e : Entry) (n : Nat) : Nat :=
  if On e n then e.onLength.toNat - n % period e else period e - n % period e

def phase (e : Entry) (n : Nat) : Entry :=
  { e with countdown := UInt16.ofNat (remaining e n), status := if On e n then 1 else 0 }

variable {n : Nat}

theorem due_iff (h1 : 0 < e.countdown.toNat) (h2 : e.countdown.toNat ≤ 32768) :
    Due e ↔ e.countdown.toNat = 1 := by
  have hsub : (e.countdown - 1).toNat = e.countdown.toNat - 1 :=
    UInt16.toNat_sub_of_le _ _ (UInt16.le_iff_toNat_le.mpr h1)
  have hint : (e.countdown - 1).toInt16.toInt = (e.countdown.toNat : Int) - 1 := by
    have hcond := BitVec.toInt_eq_toNat_cond (e.countdown - 1).toBitVec
    rw [UInt16.toNat_toBitVec, hsub, if_pos (by omega)] at hcond
    refine hcond.trans ?_
    omega
  rw [Due, Int16.lt_iff_toInt_lt, hint, Int16.toInt_zero]
  omega

theorem remaining_on (h : On e n) : remaining e n = e.onLength.toNat - n % period e := if_pos h

theorem remaining_off (h : ¬ On e n) : remaining e n = period e - n % period e := if_neg h

theorem mod_period (h : Rhythmic e) (n : Nat) : n % period e < period e :=
  Nat.mod_lt n (Nat.add_pos_left h.on.1 _)

theorem remaining_bounds (h : Rhythmic e) (n : Nat) : 0 < remaining e n ∧ remaining e n ≤ 32768 := by
  have hmod := mod_period h n
  have hon := h.on
  have hoff := h.off
  by_cases hn : On e n
  · rw [remaining_on hn]
    rw [On] at hn
    omega
  · rw [remaining_off hn]
    rw [On] at hn
    rw [period] at hn hmod ⊢
    omega

theorem phase_countdown (h : Rhythmic e) (n : Nat) :
    (phase e n).countdown.toNat = remaining e n := by
  have hb := remaining_bounds h n
  rw [phase, UInt16.toNat_ofNat', Nat.mod_eq_of_lt (by omega)]

theorem due_phase (h : Rhythmic e) (n : Nat) : Due (phase e n) ↔ remaining e n = 1 := by
  have hb := remaining_bounds h n
  rw [due_iff, phase_countdown h] <;> rw [phase_countdown h] <;> omega

theorem mod_succ (h : Rhythmic e) (n : Nat) :
    (n + 1) % period e = if n % period e + 1 = period e then 0 else n % period e + 1 := by
  have hp : 1 < period e := Nat.add_le_add h.on.1 h.off.1
  have hmod := mod_period h n
  rw [Nat.add_mod_eq_ite, Nat.mod_eq_of_lt hp]
  split <;> split <;> omega

theorem remaining_succ (h : Rhythmic e) (hn : remaining e n ≠ 1) :
    (On e (n + 1) ↔ On e n) ∧ remaining e (n + 1) = remaining e n - 1 := by
  have hp : period e = e.onLength.toNat + e.offLength.toNat := rfl
  have hoff := h.off
  have hmod := mod_period h n
  by_cases ho : On e n
  · rw [remaining_on ho] at hn ⊢
    rw [On] at ho
    have hnext : (n + 1) % period e = n % period e + 1 := by rw [mod_succ h, if_neg (by omega)]
    have hon : On e (n + 1) := by
      rw [On, hnext]
      omega
    rw [remaining_on hon, hnext]
    exact ⟨iff_of_true hon ho, by omega⟩
  · rw [remaining_off ho] at hn ⊢
    have hnext : (n + 1) % period e = n % period e + 1 := by rw [mod_succ h, if_neg (by omega)]
    have hno : ¬ On e (n + 1) := by
      rw [On] at ho
      rw [On, hnext]
      omega
    rw [remaining_off hno, hnext]
    exact ⟨iff_of_false hno ho, by omega⟩

theorem remaining_change (h : Rhythmic e) (hn : remaining e n = 1) :
    (On e (n + 1) ↔ ¬ On e n) ∧
      remaining e (n + 1) = if On e n then e.offLength.toNat else e.onLength.toNat := by
  have hnext := mod_succ h n
  have hon := h.on
  have hoff := h.off
  by_cases ho : On e n
  · rw [remaining_on ho] at hn
    have hlast : n % period e + 1 = e.onLength.toNat := by omega
    rw [hlast, if_neg (by rw [period]; omega)] at hnext
    have hno : ¬ On e (n + 1) := by
      rw [On, hnext]
      exact Nat.lt_irrefl _
    rw [if_pos ho, remaining_off hno, hnext, period, Nat.add_sub_cancel_left]
    exact ⟨iff_of_false hno (not_not.mpr ho), rfl⟩
  · rw [remaining_off ho] at hn
    rw [if_pos (by omega)] at hnext
    have hyes : On e (n + 1) := by
      rw [On, hnext]
      exact hon.1
    rw [if_neg ho, remaining_on hyes, hnext, Nat.sub_zero]
    exact ⟨iff_of_true hyes ho, rfl⟩

theorem phase_status (e : Entry) (n : Nat) : (phase e n).status &&& 1 = 0 ↔ ¬ On e n := by
  rw [phase]
  split <;> simp_all

theorem tick_phase (h : Rhythmic e) (n : Nat) : tick (phase e n) = phase e (n + 1) := by
  by_cases hdue : Due (phase e n)
  · obtain ⟨hchange, hrest⟩ := remaining_change h ((due_phase h n).mp hdue)
    have hload : phase e (n + 1) = { phase e n with
        countdown := UInt16.ofNat (if On e n then e.offLength.toNat else e.onLength.toNat)
        status := if On e n then 0 else 1 } := by
      rw [phase, hrest]
      by_cases ho : On e n
      · simp only [hchange, ho, not_true_eq_false, if_false, if_true, phase]
      · simp only [hchange, ho, not_false_eq_true, if_false, if_true, phase]
    rw [tick, if_pos hdue, hload]
    simp only [phase_status]
    by_cases ho : On e n
    · simp [ho, phase]
    · simp [ho, phase]
  · obtain ⟨hsame, hrest⟩ := remaining_succ h fun h1 => hdue ((due_phase h n).mpr h1)
    have hb := remaining_bounds h n
    have hpred : UInt16.ofNat (remaining e n) - 1 = UInt16.ofNat (remaining e n - 1) := by
      rw [UInt16.ofNat_sub hb.1]
      rfl
    rw [tick, if_neg hdue, phase, phase, hrest, ← hpred]
    simp only [hsame]

theorem phase_added (h : Rhythmic e) : added e = phase e 0 := by
  have hon : On e 0 := by
    rw [On, Nat.zero_mod]
    exact h.on.1
  rw [phase, remaining_on hon, if_pos hon, Nat.zero_mod, Nat.sub_zero, UInt16.ofNat_toNat, added]

def litChar (e : Entry) (n : Nat) : UInt8 := if On e n then e.onChar else e.offChar

theorem litChar_same (h : Rhythmic e) (hn : remaining e n ≠ 1) : litChar e (n + 1) = litChar e n := by
  simp only [litChar, (remaining_succ h hn).1]

theorem cell_tick (h : Rhythmic e) (n : Nat) (ch : UInt8) : Cell.tick ⟨some (phase e n), ch⟩ =
    ⟨some (phase e (n + 1)), if remaining e n = 1 then litChar e (n + 1) else ch⟩ := by
  have hchar (hn : remaining e n = 1) : litChar e (n + 1) =
      if (phase e n).status &&& 1 = 0 then (phase e n).onChar else (phase e n).offChar := by
    simp only [litChar, (remaining_change h hn).1, phase_status]
    rfl
  rw [Cell.tick]
  simp only [tick_phase h, due_phase h]
  by_cases hn : remaining e n = 1
  · rw [if_pos hn, if_pos hn, hchar hn]
  · rw [if_neg hn, if_neg hn]

theorem cell_ticks (h : Rhythmic e) (n k : Nat) :
    Cell.tick^[k] ⟨some (phase e n), litChar e n⟩ = ⟨some (phase e (n + k)), litChar e (n + k)⟩ := by
  induction k generalizing n with
  | zero => rfl
  | succ k ih =>
    have hnext : (if remaining e n = 1 then litChar e (n + 1) else litChar e n) =
        litChar e (n + 1) := by
      split
      · rfl
      · next hn => exact (litChar_same h hn).symm
    rw [Function.iterate_succ_apply, cell_tick h, hnext, ih, Nat.add_right_comm, Nat.add_assoc]

theorem cell_ticks_late (h : Rhythmic e) (n k : Nat) (ch : UInt8) :
    Cell.tick^[k] ⟨some (phase e n), ch⟩ =
      ⟨some (phase e (n + k)), if k < remaining e n then ch else litChar e (n + k)⟩ := by
  induction k generalizing n with
  | zero =>
    rw [if_pos (remaining_bounds h n).1]
    rfl
  | succ k ih =>
    rw [Function.iterate_succ_apply, cell_tick h]
    by_cases hn : remaining e n = 1
    · rw [if_pos hn, cell_ticks h, hn, if_neg (by omega), Nat.add_right_comm, Nat.add_assoc]
    · have hb := remaining_bounds h n
      rw [if_neg hn, ih, (remaining_succ h hn).2, Nat.add_right_comm, Nat.add_assoc]
      congr 1
      simp only [show k < remaining e n - 1 ↔ k + 1 < remaining e n by omega]

variable {u : BlinkStruct} {calls : List Call}

theorem add_other (h : location ≠ u.location) (t : Cells) :
    t.add u.toEntry location = t location := by
  rw [Cells.add]
  split
  · rfl
  · exact Function.update_of_ne h _ _

theorem add_self (h : u.location.toNat < cells) (t : Cells) :
    t.add u.toEntry u.location = ⟨some (added u.toEntry), u.onChar⟩ := by
  rw [Cells.add, if_neg (Nat.not_le.mpr h)]
  exact Function.update_self _ _ _

theorem sync_other {dst : UInt16} (h : location ≠ dst) (src : UInt16) (t : Cells) :
    t.sync src dst location = t location := by
  rw [Cells.sync]
  cases (t src).entry with
  | none => rfl
  | some e =>
    cases (t dst).entry with
    | none => rfl
    | some e' => exact Function.update_of_ne h _ _

/-- The program goes through a whole run as the cells do. -/
theorem mirrors_run (h : Mirrors old s t) (hnew : Along Cells.step NewCell t calls) :
    ∃ s', calls.foldlM Blink.step s = some s' ∧ Mirrors old s' (run Cells.step t calls) := by
  induction calls generalizing s t with
  | nil => exact ⟨s, rfl, h⟩
  | cons c calls ih =>
    obtain ⟨s₁, hstep, hnext⟩ := mirrors_step h hnew.1
    obtain ⟨s', hrun, hmirrors⟩ := ih hnext hnew.2
    refine ⟨s', ?_, hmirrors⟩
    rw [List.foldlM_cons, hstep]
    exact hrun

/-- The list and its nodes do not matter: when every ADD goes to a new cell, the program returns
from every call and draws what a screen of independent cells shows. -/
theorem draws_cells (vmem : Nat → UInt8) (calls : List Call)
    (hnew : Along Cells.step NewCell (blank vmem) calls) :
    ∃ s, calls.foldlM Blink.step (start vmem) = some s ∧
      (∀ location, s.vmem (screenOffset location) =
        (run Cells.step (blank vmem) calls location).char) ∧
      ∀ x, OffScreen x → s.vmem x = vmem x := by
  obtain ⟨s, hrun, hmirrors⟩ := mirrors_run (mirrors_start vmem) hnew
  exact ⟨s, hrun, hmirrors.char, fun x hx => hmirrors.outside hx⟩

def twoStars : List Call :=
  [.add (BlinkList.star 40), .add (BlinkList.star 540), .tasklet, .sync 0x21C0028, .tasklet, .remove 40,
    .tasklet]

theorem twoStars_new : Along Cells.step NewCell (blank fun _ => 0) twoStars :=
  ⟨fun _ => by decide, fun _ => by decide, trivial, trivial, trivial, trivial, trivial, trivial⟩

theorem draws_cells_two : ∃ s, twoStars.foldlM Blink.step (start fun _ => 0) = some s ∧
    (∀ location, s.vmem (screenOffset location) =
      (run Cells.step (blank fun _ => 0) twoStars location).char) ∧
    ∀ x, OffScreen x → s.vmem x = 0 := draws_cells (fun _ => 0) twoStars twoStars_new

def Spares (location : UInt16) : Call → Prop
  | .add user => user.location ≠ location
  | .remove arg => arg.toUInt16 ≠ location
  | .sync arg => syncTarget arg ≠ location
  | .tasklet => True

theorem step_spared (h : Spares location c) (hc : c ≠ .tasklet) (t : Cells) :
    t.step c location = t location := by
  cases c with
  | add user => exact add_other (Ne.symm h) t
  | remove arg => exact Function.update_of_ne (Ne.symm h) _ _
  | sync arg => exact sync_other (Ne.symm h) _ t
  | tasklet => exact absurd rfl hc

/-- Whatever happens to the others, an entry counts the ticks. -/
theorem run_spared (h : Rhythmic e) (hspare : ∀ c ∈ calls, Spares location c)
    (hcell : t location = ⟨some (phase e n), litChar e n⟩) : run Cells.step t calls location =
      ⟨some (phase e (n + calls.count .tasklet)), litChar e (n + calls.count .tasklet)⟩ := by
  induction calls generalizing t n with
  | nil => exact hcell
  | cons c calls ih =>
    have hspare' : ∀ c ∈ calls, Spares location c := fun d hd => hspare d (List.mem_cons_of_mem c hd)
    rw [run_cons]
    by_cases hc : c = .tasklet
    · subst hc
      have hnext : t.step .tasklet location = ⟨some (phase e (n + 1)), litChar e (n + 1)⟩ := by
        change (t location).tick = _
        rw [hcell]
        exact cell_ticks h n 1
      rw [ih hspare' hnext, List.count_cons_self, Nat.add_right_comm, Nat.add_assoc]
    · have hnext := (step_spared (hspare c List.mem_cons_self) hc t).trans hcell
      rw [ih hspare' hnext, List.count_cons_of_ne hc]

/-- An entry blinks in its own rhythm, when every ADD goes to a new location: after any calls that
do not touch its own, with `n` ticks among them, its cell shows the first character when `n` is in
the first part of a period. -/
theorem blinks (vmem : Nat → UInt8) (pre : List Call) (user : BlinkStruct) (calls : List Call)
    (hnew : Along Cells.step NewCell (blank vmem) (pre ++ .add user :: calls))
    (hcell : user.location.toNat < cells) (h : Rhythmic user.toEntry)
    (hspare : ∀ c ∈ calls, Spares user.location c) :
    ∃ s, (pre ++ .add user :: calls).foldlM Blink.step (start vmem) = some s ∧
      s.vmem (screenOffset user.location) = litChar user.toEntry (calls.count .tasklet) := by
  obtain ⟨s, hrun, hmirrors⟩ := mirrors_run (mirrors_start vmem) hnew
  refine ⟨s, hrun, ?_⟩
  have hon : On user.toEntry 0 := by
    rw [On, Nat.zero_mod]
    exact h.on.1
  have hadded : (run Cells.step (blank vmem) pre).step (.add user) user.location =
      ⟨some (phase user.toEntry 0), litChar user.toEntry 0⟩ := by
    rw [← phase_added h, litChar, if_pos hon]
    exact add_self hcell _
  have hspared := run_spared h hspare hadded
  rw [Nat.zero_add] at hspared
  rw [hmirrors.char, run_append, run_cons, hspared]

theorem blinks_two : ∃ s, twoStars.foldlM Blink.step (start fun _ => 0) = some s ∧
    s.vmem (screenOffset (BlinkList.star 540).location) = litChar (BlinkList.star 540).toEntry 3 := by
  have hspare : ∀ c ∈ [Call.tasklet, .sync 0x21C0028, .tasklet, .remove 40, .tasklet],
      Spares (BlinkList.star 540).location c := by
    simp only [List.forall_mem_cons, List.not_mem_nil, false_imp_iff, implies_true, Spares]
    decide
  exact blinks (fun _ => 0) [.add (BlinkList.star 40)] (BlinkList.star 540) _ twoStars_new (by decide)
    ⟨by decide, by decide⟩ hspare

end RedstoneOS.BlinkCells
