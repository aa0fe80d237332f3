import RedstoneOS.BlinkList
import Mathlib.Data.List.Pairwise

namespace RedstoneOS.BlinkScreen

open Blink BlinkEntries BlinkList Library.LinkedList Library.Runs

def NewLocation (r : Both) : Call → Prop
  | .add user => user.location ≠ 0 ∧ ∀ e ∈ r.2.entries, e.location ≠ user.location
  | _ => True

/-- The listed entries stand on the screen as their status says. -/
def Drawn (r : Both) : Prop := ∃ s, r.1 = some s ∧ ∀ i, Listed s i →
  ((entryOf s i).status = 1 → s.vmem (screenOffset (entryOf s i).location) = (entryOf s i).onChar) ∧
  ((entryOf s i).status = 0 → s.vmem (screenOffset (entryOf s i).location) = (entryOf s i).offChar)

/-- A SYNC takes over the status 0, or the target looks the same in both. -/
def SyncFits (r : Both) : Call → Prop
  | .sync arg => ∀ e e', r.2.entries.find? (standsAt (syncSource arg)) = some e →
    r.2.entries.find? (standsAt (syncTarget arg)) = some e' → e.status = 0 ∨ e'.onChar = e'.offChar
  | _ => True

def shown (e : Entry) : UInt8 := if e.status = 1 then e.onChar else e.offChar

def Apart (e e' : Entry) : Prop := e.location ≠ e'.location

instance : Std.Symm Apart := ⟨fun _ _ h => Ne.symm h⟩

structure Shows (a : Board) : Prop where
  nonzero : ∀ e ∈ a.entries, e.location ≠ 0
  apart : a.entries.Pairwise Apart
  status : ∀ e ∈ a.entries, e.status = 0 ∨ e.status = 1
  drawn : ∀ e ∈ a.entries, a.vmem (screenOffset e.location) = shown e

variable {r : Both} {c : Call} {s : State} {nodes : List Nat} {a : Board} {e e' : Entry}
  {l : List Entry} {location : UInt16} {g : Entry → Entry} {vmem : Nat → UInt8}

theorem screenOffset_inj {x y : UInt16} : screenOffset x = screenOffset y ↔ x = y := by
  rw [screenOffset, screenOffset, ← UInt16.toNat_inj]
  omega

theorem draw_self (ch : UInt8) (e : Entry) (vmem : Nat → UInt8) :
    draw ch e vmem (screenOffset e.location) = ch := Function.update_self _ _ _

theorem draw_other (h : e'.location ≠ e.location) (ch : UInt8) (vmem : Nat → UInt8) :
    draw ch e vmem (screenOffset e'.location) = vmem (screenOffset e'.location) :=
  Function.update_of_ne (fun he => h (screenOffset_inj.mp he)) _ _

theorem shows_start (vmem : Nat → UInt8) : Shows ⟨[], vmem⟩ where
  nonzero _ he := absurd he List.not_mem_nil
  apart := List.Pairwise.nil
  status _ he := absurd he List.not_mem_nil
  drawn _ he := absurd he List.not_mem_nil

theorem shows_add (h : Shows a) (h0 : e.location ≠ 0) (hnew : ∀ x ∈ a.entries, x.location ≠ e.location) :
    Shows (a.add e) := by
  rw [Board.add]
  split
  · exact h
  · refine ⟨?_, ?_, ?_, ?_⟩
    · exact List.forall_mem_cons.mpr ⟨h0, h.nonzero⟩
    · exact List.pairwise_cons.mpr ⟨fun x hx => (hnew x hx).symm, h.apart⟩
    · exact List.forall_mem_cons.mpr ⟨Or.inr rfl, h.status⟩
    · intro x hx
      obtain rfl | hx := List.mem_cons.mp hx
      · exact draw_self e.onChar e a.vmem
      · exact (draw_other (hnew x hx) e.onChar a.vmem).trans (h.drawn x hx)

theorem shows_remove (h : Shows a) (location : UInt16) : Shows (a.remove location) := by
  have hsub : (a.entries.eraseP (standsAt location)).Sublist a.entries := List.eraseP_sublist
  exact ⟨fun x hx => h.nonzero x (hsub.subset hx), h.apart.sublist hsub,
    fun x hx => h.status x (hsub.subset hx), fun x hx => h.drawn x (hsub.subset hx)⟩

theorem standsAt_iff : standsAt location e = true ↔ e.location = location := decide_eq_true_iff

theorem modifyFirst_eq_map (h : l.Pairwise Apart) : modifyFirst (standsAt location) g l =
    l.map fun x => if standsAt location x then g x else x := by
  induction l with
  | nil => rfl
  | cons e l ih =>
    obtain ⟨he, hl⟩ := List.pairwise_cons.mp h
    rw [modifyFirst, List.map_cons]
    by_cases hp : standsAt location e
    · have hrest : (l.map fun x => if standsAt location x then g x else x) = l.map id := by
        apply List.map_congr_left
        intro x hx
        have hne : ¬ standsAt location x = true := by
          rw [standsAt_iff, ← standsAt_iff.mp hp]
          exact (he x hx).symm
        rw [if_neg hne, id]
      rw [if_pos hp, if_pos hp, hrest, List.map_id]
    · rw [if_neg hp, if_neg hp, ih hl]

theorem eq_found (h : l.Pairwise Apart) (hfind : l.find? (standsAt location) = some e') (he : e ∈ l)
    (hat : e.location = location) : e = e' := by
  by_contra hne
  have hloc := standsAt_iff.mp (List.find?_some hfind)
  have hapart : Apart e e' := h.forall he (List.mem_of_find?_eq_some hfind) hne
  exact hapart (hat.trans hloc.symm)

theorem mem_modifyFirst (h : l.Pairwise Apart) (hfind : l.find? (standsAt location) = some e')
    (he : e ∈ modifyFirst (standsAt location) g l) :
    e = g e' ∨ e ∈ l ∧ e.location ≠ e'.location := by
  have hloc := standsAt_iff.mp (List.find?_some hfind)
  rw [modifyFirst_eq_map h] at he
  obtain ⟨x, hx, rfl⟩ := List.mem_map.mp he
  by_cases hat : standsAt location x
  · rw [if_pos hat, eq_found h hfind hx (standsAt_iff.mp hat)]
    exact Or.inl rfl
  · rw [if_neg hat, hloc]
    exact Or.inr ⟨hx, fun hxl => hat (standsAt_iff.mpr hxl)⟩

theorem found_mem_modifyFirst (h : l.Pairwise Apart) (hfind : l.find? (standsAt location) = some e') :
    g e' ∈ modifyFirst (standsAt location) g l := by
  rw [modifyFirst_eq_map h]
  apply List.mem_map.mpr
  exact ⟨e', List.mem_of_find?_eq_some hfind, if_pos (List.find?_some hfind)⟩

theorem apart_map (h : l.Pairwise Apart) (hg : ∀ e, (g e).location = e.location) :
    (l.map g).Pairwise Apart := by
  rw [List.pairwise_map]
  apply h.imp
  intro e e' hne
  rw [Apart, hg, hg]
  exact hne

theorem shows_sync (h : Shows a) {src dst : UInt16} (hfits : ∀ e e',
    a.entries.find? (standsAt src) = some e → a.entries.find? (standsAt dst) = some e' →
      e.status = 0 ∨ e'.onChar = e'.offChar) : Shows (a.sync src dst) := by
  rw [Board.sync]
  split
  · next e e' hsrc hdst =>
    have he := List.mem_of_find?_eq_some hsrc
    have he' := List.mem_of_find?_eq_some hdst
    refine ⟨fun x hx => ?_, ?_, fun x hx => ?_, fun x hx => ?_⟩
    · obtain rfl | ⟨hx, -⟩ := mem_modifyFirst h.apart hdst hx
      · exact h.nonzero e' he'
      · exact h.nonzero x hx
    · rw [modifyFirst_eq_map h.apart]
      apply apart_map h.apart
      intro x
      split <;> rfl
    · obtain rfl | ⟨hx, -⟩ := mem_modifyFirst h.apart hdst hx
      · exact h.status e he
      · exact h.status x hx
    · obtain rfl | ⟨hx, hne⟩ := mem_modifyFirst h.apart hdst hx
      · apply (draw_self e'.offChar e' a.vmem).trans
        obtain h0 | hsame := hfits e e' hsrc hdst
        · exact (if_neg (by rw [synced, h0]; decide)).symm
        · exact (ite_eq_right_iff.mpr fun _ => hsame).symm
      · exact (draw_other hne e'.offChar a.vmem).trans (h.drawn x hx)
  · exact h

theorem tick_location (e : Entry) : (tick e).location = e.location := by
  rw [tick]
  split <;> rfl

theorem tickScreen_other (h : e'.location ≠ e.location) (vmem : Nat → UInt8) :
    tickScreen vmem e (screenOffset e'.location) = vmem (screenOffset e'.location) := by
  rw [tickScreen]
  split
  · exact draw_other h _ vmem
  · rfl

theorem tickScreen_self (hstatus : e.status = 0 ∨ e.status = 1)
    (hdrawn : vmem (screenOffset e.location) = shown e) :
    tickScreen vmem e (screenOffset e.location) = shown (tick e) := by
  by_cases hdue : Due e
  · rw [tickScreen, if_pos hdue, draw_self, tick, if_pos hdue, shown]
    obtain h0 | h1 := hstatus
    · rw [h0]
      rfl
    · rw [h1]
      rfl
  · rw [tickScreen, if_neg hdue, tick, if_neg hdue]
    exact hdrawn

theorem tick_status (hstatus : e.status = 0 ∨ e.status = 1) :
    (tick e).status = 0 ∨ (tick e).status = 1 := by
  by_cases hdue : Due e
  · rw [tick, if_pos hdue]
    obtain h0 | h1 := hstatus
    · exact Or.inr (by rw [h0]; rfl)
    · exact Or.inl (by rw [h1]; rfl)
  · rw [tick, if_neg hdue]
    exact hstatus

theorem ticks_other (h : ∀ x ∈ l, e.location ≠ x.location) (vmem : Nat → UInt8) :
    l.foldl tickScreen vmem (screenOffset e.location) = vmem (screenOffset e.location) := by
  induction l generalizing vmem with
  | nil => rfl
  | cons x l ih =>
    rw [List.foldl_cons, ih fun y hy => h y (List.mem_cons_of_mem x hy)]
    exact tickScreen_other (h x List.mem_cons_self) vmem

theorem ticks_drawn (hapart : l.Pairwise Apart) (hstatus : ∀ e ∈ l, e.status = 0 ∨ e.status = 1)
    (hdrawn : ∀ e ∈ l, vmem (screenOffset e.location) = shown e) (he : e ∈ l) :
    l.foldl tickScreen vmem (screenOffset e.location) = shown (tick e) := by
  induction l generalizing vmem with
  | nil => cases he
  | cons x l ih =>
    obtain ⟨hx, hl⟩ := List.pairwise_cons.mp hapart
    rw [List.foldl_cons]
    obtain rfl | he := List.mem_cons.mp he
    · rw [ticks_other hx]
      exact tickScreen_self (hstatus e List.mem_cons_self) (hdrawn e List.mem_cons_self)
    · refine ih hl (fun y hy => hstatus y (List.mem_cons_of_mem x hy)) (fun y hy => ?_) he
      rw [tickScreen_other (hx y hy).symm]
      exact hdrawn y (List.mem_cons_of_mem x hy)

theorem shows_tick (h : Shows a) : Shows a.tick where
  nonzero x hx := by
    obtain ⟨e, he, rfl⟩ := List.mem_map.mp hx
    rw [tick_location]
    exact h.nonzero e he
  apart := apart_map h.apart tick_location
  status x hx := by
    obtain ⟨e, he, rfl⟩ := List.mem_map.mp hx
    exact tick_status (h.status e he)
  drawn x hx := by
    obtain ⟨e, he, rfl⟩ := List.mem_map.mp hx
    rw [tick_location]
    exact ticks_drawn h.apart h.status h.drawn he

theorem shows_step (h : Shows r.2) (hnew : NewLocation r c) (hfits : SyncFits r c) :
    Shows (r.2.step c) := by
  cases c with
  | add user => exact shows_add h hnew.1 hnew.2
  | remove arg => exact shows_remove h arg.toUInt16
  | sync arg => exact shows_sync h hfits
  | tasklet => exact shows_tick h

theorem keeps_of_shows (h : Simulates r) (hshows : Shows r.2) (c : Call) : Keeps r c := by
  obtain ⟨s, nodes, hs, hrep⟩ := h
  intro s' hs'
  obtain rfl := Option.some.inj (hs.symm.trans hs')
  cases c with
  | add user =>
    intro _ i hi hzero
    rw [listed_iff hrep.linked] at hi
    have hmem : entryOf s i ∈ r.2.entries := hrep.entries ▸ List.mem_map_of_mem hi
    exact absurd hzero (hshows.nonzero _ hmem)
  | remove arg => trivial
  | sync arg => trivial
  | tasklet => trivial

theorem drawn_of_shows (h : Simulates r) (hshows : Shows r.2) : Drawn r := by
  obtain ⟨s, nodes, hs, hrep⟩ := h
  refine ⟨s, hs, fun i hi => ?_⟩
  rw [listed_iff hrep.linked] at hi
  have hmem : entryOf s i ∈ r.2.entries := hrep.entries ▸ List.mem_map_of_mem hi
  have hdrawn := hshows.drawn _ hmem
  rw [hrep.screen]
  constructor
  · intro h1
    rw [hdrawn, shown, if_pos h1]
  · intro h0
    rw [hdrawn, shown, if_neg (by rw [h0]; decide)]

theorem not_drawn_of_sync (h : Simulates r) (hshows : Shows r.2) (hfits : ¬ SyncFits r c) :
    ¬ Drawn (stepBoth r c) := by
  have hnext := simulates_step h (keeps_of_shows h hshows c)
  cases c with
  | add user => exact absurd trivial hfits
  | remove arg => exact absurd trivial hfits
  | tasklet => exact absurd trivial hfits
  | sync arg =>
    simp only [SyncFits, not_forall, not_or] at hfits
    obtain ⟨e, e', hsrc, hdst, h0, hne⟩ := hfits
    have h1 : e.status = 1 :=
      (hshows.status e (List.mem_of_find?_eq_some hsrc)).resolve_left h0
    obtain ⟨s, nodes, hs, hrep⟩ := hnext
    have hboard : (stepBoth r (.sync arg)).2 = ⟨modifyFirst (standsAt (syncTarget arg)) (synced e) r.2.entries,
        draw e'.offChar e' r.2.vmem⟩ := by
      simp only [stepBoth, Board.step, Board.sync, hsrc, hdst]
    rw [hboard] at hrep
    have hmem : synced e e' ∈ nodes.map (entryOf s) := by
      rw [hrep.entries]
      exact found_mem_modifyFirst hshows.apart hdst
    obtain ⟨i, hi, hentry⟩ := List.mem_map.mp hmem
    rintro ⟨s', hs', hdrawn⟩
    obtain rfl := Option.some.inj (hs.symm.trans hs')
    have hcell := (hdrawn i ((listed_iff hrep.linked).mpr hi)).1 (by rw [hentry]; exact h1)
    rw [hentry, hrep.screen] at hcell
    exact hne (hcell.symm.trans (draw_self e'.offChar e' r.2.vmem))

/-- The screen is right through all calls exactly when every SYNC takes over the status 0 or
has a target whose two characters are the same. -/
theorem drawn_iff (vmem : Nat → UInt8) (calls : List Call)
    (hnew : Along stepBoth NewLocation (begin vmem) calls) :
    (∀ pre, pre <+: calls → Drawn (run stepBoth (begin vmem) pre)) ↔
      Along stepBoth SyncFits (begin vmem) calls := by
  apply observed_iff_along (J := fun r => Simulates r ∧ Shows r.2) (D := NewLocation)
  · exact fun r c h hloc hfits =>
      ⟨simulates_step h.1 (keeps_of_shows h.1 h.2 c), shows_step h.2 hloc hfits⟩
  · exact fun r h => drawn_of_shows h.1 h.2
  · exact fun r c h _ hfits => not_drawn_of_sync h.1 h.2 hfits
  · exact ⟨simulates_begin vmem, shows_start vmem⟩
  · exact hnew

def syncRun : List Call := [.add (star 40), .add (star 540), .sync 0x28021C]

theorem syncRun_new : Along stepBoth NewLocation (begin fun _ => 0) syncRun := by
  refine ⟨⟨by decide, fun e he => absurd he List.not_mem_nil⟩, ⟨by decide, fun e he => ?_⟩, trivial, trivial⟩
  obtain rfl := List.mem_singleton.mp he
  decide

theorem drawn_iff_sync : (∀ pre, pre <+: syncRun → Drawn (run stepBoth (begin fun _ => 0) pre)) ↔
    Along stepBoth SyncFits (begin fun _ => 0) syncRun :=
  drawn_iff (fun _ => 0) syncRun syncRun_new

/-- Both entries are on, and the second one is drawn as if it were off. -/
theorem sync_draws_off : Along stepBoth NewLocation (begin fun _ => 0) syncRun ∧
    ¬ ∀ pre, pre <+: syncRun → Drawn (run stepBoth (begin fun _ => 0) pre) := by
  refine ⟨syncRun_new, fun h => ?_⟩
  obtain ⟨s, hs, hdrawn⟩ := h _ (List.prefix_refl _)
  have hlinks : (run stepBoth (begin fun _ => 0) syncRun).1.map
      (fun s => (links s none, links s (some 1), links s (some 0))) = some (some 1, some 0, none) := by
    decide +kernel
  have hentry : (run stepBoth (begin fun _ => 0) syncRun).1.map
      (fun s => (entryOf s 1, s.vmem 1080)) = some (⟨540, 42, 32, 7, 6, 7, 1⟩, 32) := by
    decide +kernel
  rw [hs, Option.map_some, Option.some.injEq] at hlinks hentry
  obtain ⟨hhead, hrest⟩ := Prod.mk.inj hlinks
  obtain ⟨hsecond, hlast⟩ := Prod.mk.inj hrest
  obtain ⟨hone, hcell⟩ := Prod.mk.inj hentry
  have hshown := (hdrawn 1 ⟨[1, 0], ⟨hhead, hsecond, hlast⟩, List.mem_cons_self⟩).1 (by rw [hone])
  rw [hone] at hshown
  exact absurd (hshown.symm.trans hcell) (by decide)

end RedstoneOS.BlinkScreen
