import RedstoneOS.Paging
import RedstoneOS.RoundRobin
import RedstoneOS.ContextSwitch

namespace RedstoneOS.MemoryProtection

open KernelState Lib Filesystem Execute Schedule ExecuteEffects Syscalls Outcomes ExecuteChecks
open KernelRuns (Machine Suspended initial ShellLoads)
open RoundRobin Sessions SessionSteps SessionRuns ContextSwitch Paging Library.Runs

/-- The translation of an access by a user program: every entry on the way has to be present and
has to have its user bit. -/
def userTranslate (k : Kernel) (va : Nat) : Option Nat :=
  let pde := k.pdArray (va / fourMb)
  if pde.testBit 2 = false then none
  else if pde.testBit 7 then translate k va
  else if (k.kernelPageTable (va / fourKb % oneKb : Nat)).testBit 2 = false then none
  else translate k va

def mapsVideo (m : Machine) : Event → Option Int
  | .kernel (.tick _ _) => some (nextTerminal m.kernel)
  | .kernel (.switchTerminal target) => some (target : Nat)
  | .vidmap arg =>
    if arg < userProgramPaging ∨ userProgramEnd ≤ arg then none
    else some m.kernel.currentTerminalId
  | _ => none

def mappedBy (sys : System) : Machine → List Event → List Int
  | _, [] => []
  | m, e :: es => (mapsVideo m e).toList ++ mappedBy sys (step sys m e) es

def VideoPage (ts : List Int) (i : Int) : Prop := i = video ∨ ∃ t ∈ ts, i = video + t * 2

instance (ts : List Int) (i : Int) : Decidable (VideoPage ts i) :=
  inferInstanceAs (Decidable (_ ∨ _))

/-- `kernel_page_table` maps nothing but video pages, each to itself. -/
structure VideoTable (ts : List Int) (k : Kernel) : Prop where
  mapped : ∀ i : Nat, i < oneKb → VideoPage ts i → k.kernelPageTable i = i * fourKb ||| userNotPresent
  absent : ∀ i : Nat, i < oneKb → ¬ VideoPage ts i → k.kernelPageTable i = i * fourKb ||| notPresent

structure KernelDirectory (pageTable : Nat) (k : Kernel) : Prop where
  table : k.pdArray 0 = pageTable ||| 0x07
  kernel : k.pdArray 1 = oneKb * fourKb ||| fourMbPresent
  heap : k.pdArray 2 = 2 * oneKb * fourKb ||| fourMbUser
  absent : ∀ i, 2 < i → i < oneKb → i ≠ userPage → k.pdArray i = notPresent

variable {sys : System} {m : Machine} {k k₀ : Kernel} {e : Event} {es : List Event}
  {ts : List Int} {pageTable : Nat}

def videoEntry (t : Int) : Nat := u32 (videoMemory + 2 * sizeOfScreen * t) ||| userNotPresent

def SameDisplay (k k' : Kernel) : Prop :=
  k'.kernelPageTable = k.kernelPageTable ∧ k'.terminalId = k.terminalId

theorem SameDisplay.trans {k' k'' : Kernel} (h : SameDisplay k k') (h' : SameDisplay k' k'') :
    SameDisplay k k'' := ⟨h'.1.trans h.1, h'.2.trans h.2⟩

theorem sameDisplay_spawn (prog : Program) (r : Regs) (k : Kernel) :
    SameDisplay k (spawn prog r k) := by
  obtain ⟨ps, q, htake, -⟩ := takeSlot_cases k
  rw [spawn_eq_takeSlot prog r htake]
  exact ⟨rfl, rfl⟩

theorem sameDisplay_haltRelease (k : Kernel) : SameDisplay k (haltRelease k) := by
  rw [haltRelease_eq rfl]
  exact ⟨rfl, rfl⟩

def Maps (t : Int) (k k' : Kernel) : Prop :=
  k'.kernelPageTable = Function.update k.kernelPageTable (video + t * 2) (videoEntry t) ∧
    (k'.terminalId = k.terminalId ∨ k'.terminalId = t)

theorem tick_maps (sys : System) (t x : KernelRuns.Trap) (m : Machine) :
    Maps (nextTerminal m.kernel) m.kernel (KernelRuns.step sys m (.tick t x)).kernel := by
  have hshell : Maps (nextTerminal m.kernel) m.kernel
      (shellKernel (KernelRuns.entryRegs m t) m.kernel) := by
    rw [shellKernel, saveContext_eq]
    exact ⟨rfl, Or.inl rfl⟩
  obtain ⟨-, ⟨prog, hs⟩ | ⟨-, tss, hk⟩⟩ | ⟨-, -, hk⟩ := tick_step sys t x m
  · obtain ⟨htable, hterminal⟩ := sameDisplay_spawn prog (KernelRuns.entryRegs m x)
      (shellKernel (KernelRuns.entryRegs m t) m.kernel)
    rw [hs.kernel, Maps, htable, hterminal]
    exact hshell
  · rw [hk]
    exact hshell
  · rw [hk]
    exact hshell

/-- All that an event does to the display. -/
theorem display_step (sys : System) (m : Machine) (e : Event) :
    (mapsVideo m e = none ∧ SameDisplay m.kernel (step sys m e).kernel) ∨
      ∃ t, mapsVideo m e = some t ∧ Maps t m.kernel (step sys m e).kernel := by
  cases e with
  | kernel e =>
    cases e with
    | tick t x => exact Or.inr ⟨_, rfl, tick_maps sys t x m⟩
    | switchTerminal target => exact Or.inr ⟨_, rfl, rfl, Or.inr rfl⟩
    | execute command x =>
      refine Or.inl ⟨rfl, ?_⟩
      obtain ⟨prog, -, -, hs⟩ | ⟨-, hm⟩ := execute_step sys command x m
      · rw [step, hs.kernel]
        exact sameDisplay_spawn prog _ _
      · rw [step, hm]
        exact ⟨rfl, rfl⟩
    | halt status x =>
      refine Or.inl ⟨rfl, ?_⟩
      obtain ⟨-, prog, hs⟩ | ⟨-, hk⟩ := halt_step sys status x m
      · rw [step, hs.kernel]
        exact (sameDisplay_haltRelease m.kernel).trans (sameDisplay_spawn prog _ _)
      · rw [step, hk]
        exact sameDisplay_haltRelease m.kernel
    | openFile filename =>
      exact Or.inl ⟨rfl, openCall_keeps (P := SameDisplay m.kernel) ⟨rfl, rfl⟩
        (fun _ _ => ⟨rfl, rfl⟩) sys filename⟩
    | closeFile fd =>
      exact Or.inl ⟨rfl, closeCall_keeps (P := SameDisplay m.kernel) ⟨rfl, rfl⟩
        (fun _ _ => ⟨rfl, rfl⟩) fd⟩
  | read fd buf nbytes mem =>
    refine Or.inl ⟨rfl, ?_⟩
    rw [step]
    cases hread : readCall sys fd buf nbytes m.kernel mem with
    | none => exact ⟨rfl, rfl⟩
    | some r =>
      obtain ⟨value, k, mem'⟩ := r
      obtain rfl | ⟨pos, rfl⟩ := readCall_kernel hread
      · exact ⟨rfl, rfl⟩
      · exact ⟨rfl, rfl⟩
  | vidmap arg =>
    rw [step, vidmap, mapsVideo]
    split
    · exact Or.inl ⟨rfl, rfl, rfl⟩
    · refine Or.inr ⟨_, rfl, ?_, Or.inl rfl⟩
      have haddr : videoMemory + fKb * 2 * m.kernel.currentTerminalId =
          videoMemory + 2 * sizeOfScreen * m.kernel.currentTerminalId := by
        simp only [fKb, sizeOfScreen]
        omega
      rw [haddr]
      rfl

theorem sameDirectory_event (sys : System) (m : Machine) (e : Event) :
    SameDirectory m.kernel (step sys m e).kernel := by
  cases e with
  | kernel e => exact sameDirectory_step sys m e
  | read fd buf nbytes mem =>
    rw [step]
    cases hread : readCall sys fd buf nbytes m.kernel mem with
    | none => exact fun _ _ => rfl
    | some r =>
      obtain ⟨value, k, mem'⟩ := r
      obtain rfl | ⟨pos, rfl⟩ := readCall_kernel hread
      · exact fun _ _ => rfl
      · exact fun _ _ => rfl
  | vidmap arg =>
    rw [step, vidmap]
    split
    · exact fun _ _ => rfl
    · exact fun _ _ => rfl

theorem kernelDirectory_pagingInit (pageTable : Nat) (k : Kernel) :
    KernelDirectory pageTable (pagingInit pageTable k) where
  table := rfl
  kernel := rfl
  heap := rfl
  absent i h2 hi _ := by
    simp only [pagingInit]
    rw [Function.update_of_ne (by omega), Function.update_of_ne (by omega),
      Function.update_of_ne (by omega), if_pos hi]

theorem KernelDirectory.same {k' : Kernel} (h : KernelDirectory pageTable k)
    (hk : SameDirectory k k') : KernelDirectory pageTable k' where
  table := (hk 0 (by decide)).trans h.table
  kernel := (hk 1 (by decide)).trans h.kernel
  heap := (hk 2 (by decide)).trans h.heap
  absent i h2 hi hne := (hk i hne).trans (h.absent i h2 hi hne)

theorem videoEntry_eq {t : Int} (ht : IsTerminal t) {i : Nat} (hi : (i : Int) = video + t * 2) :
    videoEntry t = i * fourKb ||| userNotPresent := by
  obtain ⟨hlo, hhi⟩ := ht
  have haddr : u32 (videoMemory + 2 * sizeOfScreen * t) = i * fourKb := by
    simp only [u32, videoMemory, sizeOfScreen, video, fourKb, terminalMaximum] at *
    omega
  rw [videoEntry, haddr]

theorem videoPage_cons (t : Int) (ts : List Int) (i : Int) :
    VideoPage (ts ++ [t]) i ↔ VideoPage ts i ∨ i = video + t * 2 := by
  simp only [VideoPage, List.mem_append, List.mem_singleton]
  constructor
  · rintro (h | ⟨u, hu | rfl, h⟩)
    · exact Or.inl (Or.inl h)
    · exact Or.inl (Or.inr ⟨u, hu, h⟩)
    · exact Or.inr h
  · rintro ((h | ⟨u, hu, h⟩) | h)
    · exact Or.inl h
    · exact Or.inr ⟨u, Or.inl hu, h⟩
    · exact Or.inr ⟨t, Or.inr rfl, h⟩

theorem VideoTable.congr {k' : Kernel} (h : VideoTable ts k)
    (hk : k'.kernelPageTable = k.kernelPageTable) : VideoTable ts k' :=
  ⟨fun i hi hp => (congrFun hk i).trans (h.mapped i hi hp),
    fun i hi hp => (congrFun hk i).trans (h.absent i hi hp)⟩

theorem VideoTable.map {t : Int} {k' : Kernel} (h : VideoTable ts k) (ht : IsTerminal t)
    (hk : k'.kernelPageTable = Function.update k.kernelPageTable (video + t * 2) (videoEntry t)) :
    VideoTable (ts ++ [t]) k' where
  mapped i hi hpage := by
    rw [hk]
    by_cases hit : (i : Int) = video + t * 2
    · rw [hit, Function.update_self, videoEntry_eq ht hit]
    · rw [Function.update_of_ne hit]
      exact h.mapped i hi (((videoPage_cons t ts i).mp hpage).resolve_right hit)
  absent i hi hpage := by
    rw [videoPage_cons, not_or] at hpage
    rw [hk, Function.update_of_ne hpage.2]
    exact h.absent i hi hpage.1

theorem videoTable_pagingInit (pageTable : Nat) (k : Kernel) :
    VideoTable [] (pagingInit pageTable k) := by
  have hu32 : ∀ i : Nat, i < oneKb → u32 ((i : Int) * (fourKb : Int)) = i * fourKb := by
    intro i hi
    simp only [u32, oneKb, fourKb] at *
    omega
  refine ⟨fun i hi hpage => ?_, fun i hi hpage => ?_⟩
  · have hvideo : (i : Int) = video := by
      obtain h | ⟨t, ht, -⟩ := hpage
      · exact h
      · exact absurd ht List.not_mem_nil
    have hrange : 0 ≤ (i : Int) ∧ (i : Int) < oneKb := ⟨Int.natCast_nonneg i, by omega⟩
    simp only [pagingInit, if_pos hrange, if_pos hvideo, hu32 i hi]
    rfl
  · have hvideo : (i : Int) ≠ video := fun h => hpage (Or.inl h)
    have hrange : 0 ≤ (i : Int) ∧ (i : Int) < oneKb := ⟨Int.natCast_nonneg i, by omega⟩
    simp only [pagingInit, if_pos hrange, if_neg hvideo, hu32 i hi]

/-- `vidmap` is called by a process, and there is none before the first tick. The kernel stores
through the pointer that it gets for a buffer without a check; the tables stay out of its reach only
as long as the buffers lie in the window of the program. -/
def CallFits (m : Machine) : Event → Prop
  | .kernel _ => True
  | .read _ buf nbytes _ => 0 ≤ nbytes ∧ InWindow buf nbytes.toNat
  | .vidmap _ => m.kernel.currentTerminalId ≠ unused

/-- The tables after a run that has mapped the pages of `ts`. -/
structure Tables (pageTable : Nat) (ts : List Int) (m : Machine) : Prop where
  video : VideoTable ts m.kernel
  directory : KernelDirectory pageTable m.kernel
  turn : ∃ n, InTurn n m.kernel
  current : m.kernel.currentTerminalId ≠ unused → m.kernel.currentTerminalId ∈ ts
  displayed : m.kernel.terminalId = 0 ∨ m.kernel.terminalId ∈ ts
  range : ∀ t ∈ ts, IsTerminal t

theorem nextTerminal_range {n : Nat} (h : InTurn n k) : IsTerminal (nextTerminal k) := by
  rw [nextTerminal_inTurn h]
  simp only [IsTerminal, terminalMaximum]
  omega

theorem current_range {n : Nat} (h : InTurn n k) (hused : k.currentTerminalId ≠ unused) :
    IsTerminal k.currentTerminalId := by
  have hn : 0 < n := Nat.pos_of_ne_zero fun h0 => hused (h.first h0).1
  rw [(h.later hn).1]
  simp only [IsTerminal, terminalMaximum]
  omega

theorem mapsVideo_range {n : Nat} (h : InTurn n m.kernel) (he : CallFits m e) {t : Int}
    (ht : mapsVideo m e = some t) : IsTerminal t := by
  cases e with
  | kernel e =>
    cases e with
    | tick t x =>
      obtain rfl := Option.some.inj ht
      exact nextTerminal_range h
    | switchTerminal target =>
      obtain rfl := Option.some.inj ht
      have hlt := target.isLt
      simp only [IsTerminal, terminalMaximum]
      omega
    | _ => exact absurd ht (by simp [mapsVideo])
  | read => exact absurd ht (by simp [mapsVideo])
  | vidmap arg =>
    rw [mapsVideo] at ht
    split at ht
    · exact absurd ht (by simp)
    · obtain rfl := Option.some.inj ht
      exact current_range h he

theorem tables_step (h : Tables pageTable ts m) (he : CallFits m e) :
    Tables pageTable (ts ++ (mapsVideo m e).toList) (step sys m e) := by
  obtain ⟨n, hn⟩ := h.turn
  have hdir := h.directory.same (sameDirectory_event sys m e)
  have hturn : ∃ n, InTurn n (step sys m e).kernel := by
    cases htick : isTick e with
    | true => exact ⟨n + 1, (inTurn_tick sys hn htick).1⟩
    | false => exact ⟨n, hn.same (sameTurn_step htick)⟩
  have hmember : ∀ {t : Int}, t ∈ ts → t ∈ ts ++ (mapsVideo m e).toList :=
    fun ht => List.mem_append_left _ ht
  refine ⟨?_, hdir, hturn, fun hused => ?_, ?_, fun t ht => ?_⟩
  · obtain ⟨hnone, hsame, -⟩ | ⟨t, ht, hmap, -⟩ := display_step sys m e
    · rw [hnone, Option.toList_none, List.append_nil]
      exact h.video.congr hsame
    · rw [ht]
      exact h.video.map (mapsVideo_range hn he ht) hmap
  · cases htick : isTick e with
    | true =>
      obtain ⟨t, x, rfl⟩ : ∃ t x, e = .kernel (.tick t x) := by
        cases e with
        | kernel e =>
          cases e with
          | tick t x => exact ⟨t, x, rfl⟩
          | _ => simp [isTick] at htick
        | _ => simp [isTick] at htick
      rw [step, (tick_turn sys t x m).1]
      exact List.mem_append_right _ (by simp [mapsVideo])
    | false =>
      have hsame : SameTurn m.kernel (step sys m e).kernel := sameTurn_step htick
      rw [hsame.1] at hused ⊢
      exact hmember (h.current hused)
  · obtain ⟨-, -, hsame⟩ | ⟨t, ht, -, hsame | hnew⟩ := display_step sys m e
    · rw [hsame]
      exact h.displayed.imp_right hmember
    · rw [hsame]
      exact h.displayed.imp_right hmember
    · rw [hnew]
      exact Or.inr (List.mem_append_right _ (by rw [ht]; simp))
  · obtain ht | ht := List.mem_append.mp ht
    · exact h.range t ht
    · exact mapsVideo_range hn he (Option.mem_toList.mp ht)

theorem tables_run (h : Tables pageTable ts m) (hes : Along (step sys) CallFits m es) :
    Tables pageTable (ts ++ mappedBy sys m es) (run (step sys) m es) := by
  induction es generalizing ts m with
  | nil => rwa [mappedBy, List.append_nil]
  | cons e es ih =>
    rw [mappedBy, ← List.append_assoc]
    exact ih (tables_step h hes.1) hes.2

theorem tables_initial (pageTable : Nat) (k : Kernel) (kstack : Int → Suspended) :
    Tables pageTable [] (initial (pagingInit pageTable k) kstack) where
  video := (videoTable_pagingInit pageTable k).congr rfl
  directory := (kernelDirectory_pagingInit pageTable k).same fun _ _ => rfl
  turn := ⟨0, inTurn_initial _ kstack⟩
  current := fun h => absurd rfl h
  displayed := Or.inl rfl
  range _ ht := absurd ht List.not_mem_nil

theorem tables_of_run (pageTable : Nat) (k : Kernel) (kstack : Int → Suspended)
    (hes : Along (step sys) CallFits (initial (pagingInit pageTable k) kstack) es) :
    Tables pageTable (mappedBy sys (initial (pagingInit pageTable k) kstack) es)
      (run (step sys) (initial (pagingInit pageTable k) kstack) es) :=
  tables_run (tables_initial pageTable k kstack) hes

theorem entry_bits (i : Nat) {c : Nat} (hc : c < fourKb) :
    (i * fourKb ||| c) / fourKb = i ∧ ∀ j, j < 12 → (i * fourKb ||| c).testBit j = c.testBit j := by
  have hshift : i * fourKb = i <<< 12 := by
    rw [Nat.shiftLeft_eq, fourKb]
  have hsum : i * fourKb ||| c = i * fourKb + c := by
    rw [hshift, Nat.shiftLeft_add_eq_or_of_lt hc]
  refine ⟨?_, fun j hj => ?_⟩
  · rw [hsum]
    simp only [fourKb] at hc ⊢
    omega
  · rw [Nat.testBit_or, hshift, Nat.testBit_shiftLeft, decide_eq_false (by omega), Bool.false_and,
      Bool.false_or]

theorem pageTable_entry {va : Nat} (hva : va < fourMb) :
    va / fourMb = 0 ∧ va / fourKb % oneKb = va / fourKb ∧ va / fourKb < oneKb := by
  simp only [fourMb, fourKb, oneKb] at *
  omega

theorem table_bits {base : Nat} (h : KernelDirectory (base * fourKb) k) :
    (k.pdArray 0).testBit 0 = true ∧ (k.pdArray 0).testBit 2 = true ∧
      (k.pdArray 0).testBit 7 = false := by
  have hbits := (entry_bits base (show 7 < fourKb by decide)).2
  rw [h.table]
  exact ⟨hbits 0 (by decide), hbits 2 (by decide), hbits 7 (by decide)⟩

theorem translate_low {base : Nat} (hdir : KernelDirectory (base * fourKb) k)
    (htable : VideoTable ts k) {va : Nat} (hva : va < fourMb) :
    translate k va = (if VideoPage ts (va / fourKb : Nat) then some va else none) ∧
      userTranslate k va = if VideoPage ts (va / fourKb : Nat) then some va else none := by
  obtain ⟨hpde, hpte, hindex⟩ := pageTable_entry hva
  obtain ⟨h0, h2, h7⟩ := table_bits hdir
  have hwhole : va / fourKb * fourKb + va % fourKb = va := Nat.div_add_mod' va fourKb
  by_cases hpage : VideoPage ts (va / fourKb : Nat)
  · have hentry := htable.mapped (va / fourKb) hindex hpage
    obtain ⟨hframe, hbits⟩ := entry_bits (va / fourKb) (show userNotPresent < fourKb by decide)
    rw [← hentry] at hframe hbits
    have hb0 := hbits 0 (by decide)
    have hb2 := hbits 2 (by decide)
    rw [show userNotPresent.testBit 0 = true by decide] at hb0
    rw [show userNotPresent.testBit 2 = true by decide] at hb2
    have htrans : translate k va = some va := by
      simp only [Paging.translate, hpde, h0, h7, hpte, hb0, hframe, Bool.true_eq_false, if_false, hwhole,
        Bool.false_eq_true]
    rw [if_pos hpage]
    refine ⟨htrans, ?_⟩
    simp only [userTranslate, hpde, h2, h7, hpte, hb2, Bool.true_eq_false, if_false, htrans,
      Bool.false_eq_true]
  · have hentry := htable.absent (va / fourKb) hindex hpage
    obtain ⟨-, hbits⟩ := entry_bits (va / fourKb) (show notPresent < fourKb by decide)
    rw [← hentry] at hbits
    have hb0 := hbits 0 (by decide)
    have hb2 := hbits 2 (by decide)
    rw [show notPresent.testBit 0 = false by decide] at hb0
    rw [show notPresent.testBit 2 = false by decide] at hb2
    rw [if_neg hpage]
    refine ⟨?_, ?_⟩
    · simp only [Paging.translate, hpde, h0, h7, hpte, hb0, Bool.true_eq_false, if_false, if_true,
        Bool.false_eq_true]
    · simp only [userTranslate, hpde, h2, h7, hpte, hb2, Bool.true_eq_false, if_false, if_true,
        Bool.false_eq_true]

def KernelWindow (va : Nat) : Prop := fourMb ≤ va ∧ va < 2 * fourMb

instance (va : Nat) : Decidable (KernelWindow va) := inferInstanceAs (Decidable (_ ∧ _))

instance (va : Nat) : Decidable (HeapWindow va) := inferInstanceAs (Decidable (_ ∧ _))

instance (va : Nat) : Decidable (UserWindow va) := inferInstanceAs (Decidable (_ ∧ _))

theorem translate_kernel (hdir : KernelDirectory pageTable k) {va : Nat} (hva : KernelWindow va) :
    translate k va = some va ∧ userTranslate k va = none := by
  have hpde : va / fourMb = 1 := by
    simp only [KernelWindow, fourMb] at *
    omega
  have hentry : k.pdArray (va / fourMb) = oneKb * fourKb ||| fourMbPresent := by
    rw [hpde]
    exact hdir.kernel
  have hpage := translate_large (by rw [hentry]; decide : k.pdArray (va / fourMb) / fourMb = 1)
    (by rw [hentry]; decide) (by rw [hentry]; decide)
  have huser : (k.pdArray (va / fourMb)).testBit 2 = false := by
    rw [hentry]
    decide
  refine ⟨?_, ?_⟩
  · rw [hpage, ← hpde, Nat.div_add_mod']
  · simp only [userTranslate, huser, if_true]

theorem translate_heapWindow (hdir : KernelDirectory pageTable k) {va : Nat} (hva : HeapWindow va) :
    translate k va = some va ∧ userTranslate k va = some va := by
  have hpde : va / fourMb = 2 := by
    simp only [HeapWindow, fourMb] at *
    omega
  have hentry : k.pdArray (va / fourMb) = 2 * oneKb * fourKb ||| fourMbUser := by
    rw [hpde]
    exact hdir.heap
  have hpage := translate_large (by rw [hentry]; decide : k.pdArray (va / fourMb) / fourMb = 2)
    (by rw [hentry]; decide) (by rw [hentry]; decide)
  rw [← hpde, Nat.div_add_mod'] at hpage
  have huser : (k.pdArray (va / fourMb)).testBit 2 = true ∧
      (k.pdArray (va / fourMb)).testBit 7 = true := by
    rw [hentry]
    decide
  refine ⟨hpage, ?_⟩
  simp only [userTranslate, huser.1, huser.2, Bool.true_eq_false, if_false, if_true, hpage]

theorem translate_absent (hdir : KernelDirectory pageTable k) {va : Nat} (hva : va < 4294967296)
    (hlow : 3 * fourMb ≤ va) (huser : ¬ UserWindow va) :
    translate k va = none ∧ userTranslate k va = none := by
  have hpde : 2 < va / fourMb ∧ va / fourMb < oneKb ∧ va / fourMb ≠ userPage := by
    simp only [UserWindow, fourMb, oneKb, userPage] at *
    omega
  have hentry := hdir.absent (va / fourMb) hpde.1 hpde.2.1 hpde.2.2
  have h0 : (k.pdArray (va / fourMb)).testBit 0 = false := by
    rw [hentry]
    decide
  have h2 : (k.pdArray (va / fourMb)).testBit 2 = false := by
    rw [hentry]
    decide
  refine ⟨?_, ?_⟩
  · simp only [Paging.translate, h0, if_true]
  · simp only [userTranslate, h2, if_true]

def VideoWindow (ts : List Int) (va : Nat) : Prop := va < fourMb ∧ VideoPage ts (va / fourKb : Nat)

instance (ts : List Int) (va : Nat) : Decidable (VideoWindow ts va) :=
  inferInstanceAs (Decidable (_ ∧ _))

/-- Outside the user page every access goes to its own address or fails. -/
theorem translate_outside {base : Nat} (hdir : KernelDirectory (base * fourKb) k)
    (htable : VideoTable ts k) {va : Nat} (hva : va < 4294967296) (huser : ¬ UserWindow va) :
    translate k va =
        (if KernelWindow va ∨ HeapWindow va ∨ VideoWindow ts va then some va else none) ∧
      userTranslate k va = if HeapWindow va ∨ VideoWindow ts va then some va else none := by
  by_cases hlow : va < fourMb
  · have hkernel : ¬ KernelWindow va := fun h => by
      have hlo := h.1
      omega
    have hheap : ¬ HeapWindow va := fun h => by
      have hlo := h.1
      simp only [fourMb] at hlow
      omega
    obtain ⟨htrans, husertrans⟩ := translate_low hdir htable hlow
    have hvideo : VideoWindow ts va ↔ VideoPage ts (va / fourKb : Nat) := and_iff_right hlow
    simp only [hkernel, hheap, false_or, hvideo, htrans, husertrans, and_self]
  · have hvideo : ¬ VideoWindow ts va := fun h => hlow h.1
    by_cases hkernel : KernelWindow va
    · have hheap : ¬ HeapWindow va := fun h => by
        have hlo := h.1
        have hhi := hkernel.2
        simp only [fourMb] at hhi
        omega
      obtain ⟨htrans, husertrans⟩ := translate_kernel hdir hkernel
      rw [if_pos (Or.inl hkernel), if_neg (not_or.mpr ⟨hheap, hvideo⟩)]
      exact ⟨htrans, husertrans⟩
    · by_cases hheap : HeapWindow va
      · rw [if_pos (Or.inr (Or.inl hheap)), if_pos (Or.inl hheap)]
        exact translate_heapWindow hdir hheap
      · have habove : 3 * fourMb ≤ va := by
          simp only [KernelWindow, HeapWindow, fourMb] at *
          omega
        rw [if_neg (not_or.mpr ⟨hkernel, not_or.mpr ⟨hheap, hvideo⟩⟩),
          if_neg (not_or.mpr ⟨hheap, hvideo⟩)]
        exact translate_absent hdir hva habove huser

def ScreenPage (t : Int) (va : Nat) : Prop :=
  videoMemory + 2 * sizeOfScreen * t ≤ va ∧ va < videoMemory + 2 * sizeOfScreen * t + sizeOfScreen

theorem screenPage_mapped {t : Int} (ht : t = 0 ∨ t ∈ ts) (hrange : IsTerminal t) {va : Nat}
    (hva : ScreenPage t va) : VideoWindow ts va := by
  obtain ⟨hlo, hhi⟩ := hva
  obtain ⟨h0, h3⟩ := hrange
  have hpage : ((va / fourKb : Nat) : Int) = video + t * 2 := by
    simp only [videoMemory, sizeOfScreen, fourKb, video, terminalMaximum] at *
    omega
  refine ⟨?_, ?_⟩
  · simp only [videoMemory, sizeOfScreen, fourMb, terminalMaximum] at *
    omega
  · obtain rfl | ht := ht
    · exact Or.inl (by rw [hpage]; rfl)
    · exact Or.inr ⟨t, ht, hpage⟩

/-- What the kernel reaches outside the user page, in every run: its own 4MB, the heap and the
video pages that have been mapped, each at its own address, and never a fault on the screen of the
terminal that is displayed or scheduled. -/
theorem kernel_reaches {base : Nat} {kstack : Int → Suspended}
    (hes : Along (step sys) CallFits (initial (pagingInit (base * fourKb) k) kstack) es) :
    (∀ va, va < 4294967296 → ¬ UserWindow va →
      translate (run (step sys) (initial (pagingInit (base * fourKb) k) kstack) es).kernel va =
        if KernelWindow va ∨ HeapWindow va ∨
          VideoWindow (mappedBy sys (initial (pagingInit (base * fourKb) k) kstack) es) va
        then some va else none) ∧
    ∀ t va, ScreenPage t va →
      (t = (run (step sys) (initial (pagingInit (base * fourKb) k) kstack) es).kernel.terminalId ∨
        t = (run (step sys)
          (initial (pagingInit (base * fourKb) k) kstack) es).kernel.currentTerminalId ∧
        t ≠ unused) →
      translate (run (step sys) (initial (pagingInit (base * fourKb) k) kstack) es).kernel va =
        some va := by
  have htables := tables_of_run (base * fourKb) k kstack hes
  generalize mappedBy sys (initial (pagingInit (base * fourKb) k) kstack) es = ts at *
  generalize run (step sys) (initial (pagingInit (base * fourKb) k) kstack) es = m at *
  have hreach : ∀ va, va < 4294967296 → ¬ UserWindow va → translate m.kernel va =
      if KernelWindow va ∨ HeapWindow va ∨ VideoWindow ts va then some va else none :=
    fun _ hva huser => (translate_outside htables.directory htables.video hva huser).1
  refine ⟨hreach, fun t va hva ht => ?_⟩
  have hmapped : VideoWindow ts va := by
    obtain rfl | ⟨rfl, hused⟩ := ht
    · refine screenPage_mapped htables.displayed ?_ hva
      obtain h0 | hmem := htables.displayed
      · rw [h0]
        decide
      · exact htables.range _ hmem
    · obtain ⟨n, hn⟩ := htables.turn
      exact screenPage_mapped (Or.inr (htables.current hused)) (current_range hn hused) hva
  have hlow := hmapped.1
  have huser : ¬ UserWindow va := fun h => by
    have hlo := h.1
    simp only [fourMb] at hlow
    omega
  rw [hreach va (by simp only [fourMb] at hlow; omega) huser,
    if_pos (Or.inr (Or.inr hmapped))]

def tinyVidmap : List Event :=
  [.kernel tinyTick, .vidmap 0x8000000, .read 2 0x8100000 4 tinyMem]

def tinyPaged : Machine := initial (pagingInit (0x405 * fourKb) tinyKernel) fun _ => ⟨⟨-1, 0⟩, none⟩

def tinyMapped : Machine := run (step tinySystem) tinyPaged tinyVidmap

theorem kernel_reaches_tiny :
    (∀ va, va < 4294967296 → ¬ UserWindow va → translate tinyMapped.kernel va =
      if KernelWindow va ∨ HeapWindow va ∨ VideoWindow (mappedBy tinySystem tinyPaged tinyVidmap) va
      then some va else none) ∧
    ∀ t va, ScreenPage t va → (t = tinyMapped.kernel.terminalId ∨
      t = tinyMapped.kernel.currentTerminalId ∧ t ≠ unused) →
      translate tinyMapped.kernel va = some va :=
  kernel_reaches ⟨trivial, (by decide : (0 : Int) ≠ unused), ⟨by decide, by decide, by decide⟩, trivial⟩

theorem quiet_setFilePosition (addr fd : Int) (pos : Nat) (k : Kernel) :
    Quiet k (setFilePosition addr fd pos k) := by
  have hpcb : ∀ a, (setFilePosition addr fd pos k).pcbs a = k.pcbs a ∨
      (setFilePosition addr fd pos k).pcbs a =
        setFile fd (fun entry => { entry with filePosition := pos }) (k.pcbs a) := by
    intro a
    by_cases ha : a = addr
    · subst ha
      exact Or.inr (Function.update_self _ _ _)
    · exact Or.inl (Function.update_of_ne ha _ _)
  refine ⟨rfl, rfl, rfl, rfl, rfl, rfl, rfl, rfl, fun a => ?_, fun a => ?_, fun a => ?_⟩
  · rcases hpcb a with h | h <;> rw [h]
    · exact .refl _
    · exact ⟨rfl, rfl, rfl, rfl, rfl, rfl⟩
  · rcases hpcb a with h | h <;> simp only [h, setFile]
  · rcases hpcb a with h | h <;> simp only [h, setFile]

theorem quiet_read {fd : Int} {buf : Nat} {nbytes value : Int} {mem mem' : Mem} {k' : Kernel}
    (h : readCall sys fd buf nbytes k mem = some (value, k', mem')) : Quiet k k' := by
  obtain rfl | ⟨pos, rfl⟩ := readCall_kernel h
  · exact quiet_refl k'
  · exact quiet_setFilePosition _ fd pos k

theorem quiet_vidmap (arg : Nat) (k : Kernel) : Quiet k (vidmap arg k).2 := by
  rw [vidmap]
  split
  · exact quiet_refl k
  · exact ⟨rfl, rfl, rfl, rfl, rfl, rfl, rfl, rfl, fun _ => .refl _, fun _ => rfl, fun _ => rfl⟩

/-- The runs of the kernel from the start of the scheduler, with the system calls that the
scheduler does not see. -/
def BootedCalls (sys : System) (m : Machine) : Event → Prop
  | .kernel e => Booted sys m e
  | .read _ buf nbytes _ =>
    m.kernel.currentTerminalId ≠ unused ∧ 0 ≤ nbytes ∧ InWindow buf nbytes.toNat
  | .vidmap _ => m.kernel.currentTerminalId ≠ unused

theorem scheduling_event (hload : ShellLoads sys) (h : Scheduling m) (he : BootedCalls sys m e) :
    Scheduling (step sys m e) := by
  have hquiet : ∀ {k : Kernel}, m.kernel.currentTerminalId ≠ unused → Quiet m.kernel k →
      Scheduling { m with kernel := k } := by
    intro k hused hq
    obtain ⟨hboot, -⟩ | ⟨a, hr⟩ := h
    · exact absurd hboot.current hused
    · exact Or.inr ⟨a, represents_quiet hr hq⟩
  cases e with
  | kernel e => exact scheduling_step hload h he
  | read fd buf nbytes mem =>
    rw [step]
    cases hread : readCall sys fd buf nbytes m.kernel mem with
    | none => exact h
    | some r => exact hquiet he.1 (quiet_read hread)
  | vidmap arg => exact hquiet he (quiet_vidmap arg m.kernel)

theorem callFits_of_booted (he : BootedCalls sys m e) : CallFits m e := by
  cases e with
  | kernel e => trivial
  | read fd buf nbytes mem => exact he.2
  | vidmap arg => exact he

/-- The program that runs is in a slot, and its window is the frame of the slot. -/
theorem running_window (h : Scheduling m) (hused : m.kernel.currentTerminalId ≠ unused) :
    IsSlot m.running.slot ∧ ∀ va, UserWindow va →
      translate m.kernel va = some ((2 + m.running.slot).toNat * fourMb + va % fourMb) ∧
        userTranslate m.kernel va = some ((2 + m.running.slot).toNat * fourMb + va % fourMb) := by
  obtain ⟨hboot, -⟩ | ⟨a, hr⟩ := h
  · exact absurd hboot.current hused
  obtain ⟨j, hj, hrunning⟩ := hr.running
  have hslot : IsSlot m.running.slot := by
    rw [hrunning]
    exact hr.holds.slots a.current j (mem_of_head? hj)
  refine ⟨hslot, fun va hva => ?_⟩
  have hpde : va / fourMb = userPage := by
    simp only [UserWindow, fourMb, userPage] at *
    omega
  obtain ⟨hpage, h0, h7⟩ := userPageEntry_page hslot
  have h2 : (userPageEntry m.running.slot).testBit 2 = true := by
    obtain ⟨hlo, hhi⟩ := hslot
    interval_cases m.running.slot <;> decide
  rw [← hr.page, ← hpde] at hpage h0 h7 h2
  have htrans := translate_large hpage h0 h7
  refine ⟨htrans, ?_⟩
  simp only [userTranslate, h2, h7, Bool.true_eq_false, if_false, if_true]
  exact htrans

/-- What a user program reaches, in every state of a regular run in which there is one: the 4MB
of its own slot, the heap, and the video pages that boot, the ticks, the switches of the display
and `vidmap` have mapped. Every other access faults. -/
theorem user_reaches {base : Nat} {kstack : Int → Suspended} (hload : ShellLoads sys)
    (hes : Along (step sys) (BootedCalls sys) (initial (pagingInit (base * fourKb) k) kstack) es)
    (hused : (run (step sys)
      (initial (pagingInit (base * fourKb) k) kstack) es).kernel.currentTerminalId ≠ unused) :
    IsSlot (run (step sys) (initial (pagingInit (base * fourKb) k) kstack) es).running.slot ∧
    ∀ va, va < 4294967296 →
      userTranslate (run (step sys) (initial (pagingInit (base * fourKb) k) kstack) es).kernel va =
        if UserWindow va then
          some ((2 + (run (step sys)
            (initial (pagingInit (base * fourKb) k) kstack) es).running.slot).toNat * fourMb +
              va % fourMb)
        else if HeapWindow va ∨
          VideoWindow (mappedBy sys (initial (pagingInit (base * fourKb) k) kstack) es) va
        then some va else none := by
  have htables := tables_of_run (base * fourKb) k kstack
    (along_imp (fun _ _ he => callFits_of_booted he) hes)
  have hsched : Scheduling (run (step sys) (initial (pagingInit (base * fourKb) k) kstack) es) :=
    run_invariant (J := Scheduling) (fun _ _ hm he => scheduling_event hload hm he)
      (Or.inl ⟨booting_initial _ kstack, rfl⟩) hes
  generalize mappedBy sys (initial (pagingInit (base * fourKb) k) kstack) es = ts at *
  generalize run (step sys) (initial (pagingInit (base * fourKb) k) kstack) es = m at *
  obtain ⟨hslot, hwindow⟩ := running_window hsched hused
  refine ⟨hslot, fun va hva => ?_⟩
  by_cases huser : UserWindow va
  · rw [if_pos huser]
    exact (hwindow va huser).2
  · rw [if_neg huser]
    exact (translate_outside htables.directory htables.video hva huser).2

theorem user_reaches_tiny :
    IsSlot tinyMapped.running.slot ∧ ∀ va, va < 4294967296 →
      userTranslate tinyMapped.kernel va =
        if UserWindow va then some ((2 + tinyMapped.running.slot).toNat * fourMb + va % fourMb)
        else if HeapWindow va ∨ VideoWindow (mappedBy tinySystem tinyPaged tinyVidmap) va
        then some va else none := by
  have hstart : Booted tinySystem tinyPaged tinyTick :=
    ⟨trivial, fun _ => ⟨by decide, 3, by decide, by decide⟩, trivial, trivial⟩
  exact user_reaches tinySystem_shellLoads ⟨hstart, (by decide : (0 : Int) ≠ unused),
    ⟨(by decide : (0 : Int) ≠ unused), by decide, by decide, by decide⟩, trivial⟩ (by decide)

end RedstoneOS.MemoryProtection
