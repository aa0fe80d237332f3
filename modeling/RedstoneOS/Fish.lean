import RedstoneOS.FishFrames
import RedstoneOS.RoundRobin

namespace RedstoneOS.Fish

open KernelState Lib Library.ByteMemory Library.Runs Filesystem ReadData Execute Syscalls ExecuteChecks
open SequentialReads Itoa Ece391Support UserStrings UserProgram Blink BlinkEntries BlinkList BlinkScreen BlinkCells FishFrames

/-- Where the variables of the program stand, and what the two entries on its stack hold before
they are filled in. -/
structure Variables where
  vmemBaseAddr : Nat
  retVal : Nat
  garbage : Nat
  c0 : Nat
  c1 : Nat
  blinkStruct : BlinkStruct
  frameStruct : BlinkStruct

def screenStart (k : Kernel) : Nat := u32 ((0xB8 + k.currentTerminalId * 2) * RoundRobin.fKb)

def ece391Vidmap (arg : Nat) (p : Process) : Int × Process :=
  let (value, k) := RoundRobin.vidmap arg p.kernel
  if value = -1 then (-1, { p with kernel := k })
  else (0, { p with
    kernel := k
    mem := fill p.mem arg (fun i => UInt8.ofNat (screenStart p.kernel / 256 ^ i)) 4 })

/-- Null stands for a failure. -/
def mp1SetVideoMode (v : Variables) (p : Process) : Nat × Process :=
  let (value, p) := ece391Vidmap v.vmemBaseAddr p
  if value = -1 then (0, p) else (load32 p.mem v.vmemBaseAddr, p)

def wait : Nat := 200

def tickLoop (sys : System) (rtcFd : Int) (garbage : Nat) : Nat → Fish → Option Fish
  | 0, s => some s
  | n + 1, s => do
    let (_, p) ← ece391Read sys rtcFd garbage 4 s.process
    let blink ← mp1RtcTasklet s.blink
    tickLoop sys rtcFd garbage n ⟨p, blink, s.shots ++ [blink.vmem]⟩

def playLoop (sys : System) (v : Variables) (rtcFd : Int) (s : Fish) : Option (Int × Fish) := do
  let (_, p) ← ece391Write rtcFd v.retVal (byteAt [32, 0, 0, 0]) 4 s.process
  let s ← tickLoop sys rtcFd v.garbage wait { s with process := p }
  let (_, blink) := mp1IoctlAdd
    { v.blinkStruct with
      onChar := 73, offChar := 77, onLength := 7, offLength := 6, location := 6 * 80 + 60 } s.blink
  let s ← tickLoop sys rtcFd v.garbage wait { s with blink := blink }
  let (_, blink) ← mp1IoctlSync ((40 : UInt32) <<< 16 ||| (6 * 80 + 60 : UInt32)) s.blink
  let s ← tickLoop sys rtcFd v.garbage wait { s with blink := blink }
  -- the counter of the last loop stands where a location is expected
  let (_, blink) ← mp1IoctlRemove (UInt32.ofNat wait) s.blink
  let s ← tickLoop sys rtcFd v.garbage (80 * 25) { s with blink := blink }
  some (0, { s with process := (ece391Close rtcFd s.process).2 })

/-- The program, from a process and the screen that it draws on. An error is the argument of
`halt`. -/
def main (sys : System) (fuel : Nat) (v : Variables) (vmem : Nat → UInt8) (p : Process) :
    Option (Except Int (Int × Fish)) :=
  let (base, p) := mp1SetVideoMode v p
  if base = 0 then some (.ok (-1, ⟨p, start vmem, []⟩))
  else
    let (rtcFd, p) := ece391Open sys (ascii "rtc") p
    match addFrames sys fuel v.c0 v.c1 (ascii "frame0.txt") (ascii "frame1.txt") v.frameStruct
        ⟨p, start vmem, []⟩ with
    | none => none
    | some (.error status) => some (.error status)
    | some (.ok s) => (playLoop sys v rtcFd s).map .ok

def pairAt (rows : List (List (UInt8 × UInt8))) (location : Nat) : UInt8 × UInt8 :=
  if location < 40 then (32, 32)
  else (rows.getD ((location - 40) / 80) []).getD ((location - 40) % 80) (32, 32)

/-- Rows that are not longer than a line of the screen, and not so many that a location wraps. -/
structure Fits (rows : List (List (UInt8 × UInt8))) : Prop where
  cols : ∀ r ∈ rows, r.length ≤ 80
  rows : rows.length ≤ 818

/-- The message at the location 6*80+60, `n` ticks after the start. -/
def message (rows : List (List (UInt8 × UInt8))) (n : Nat) : UInt8 :=
  if n ≤ 400 ∨ pairAt rows 40 = (32, 32) then if (n - 200) % 13 < 7 then 73 else 77
  -- SYNC has drawn the second character, though the entry it takes over is on
  else if n < 405 then 77
  else if n / 15 % 2 = 0 then 73 else 77

/-- What stands at a location `n` ticks after the start. The entry at 200 is removed after 600. -/
def cellPicture (rows : List (List (UInt8 × UInt8))) (old : UInt8) (n location : Nat) : UInt8 :=
  if pairAt rows location ≠ (32, 32) then
    if (if location = 200 then min n 600 else n) / 15 % 2 = 0 then (pairAt rows location).1
    else (pairAt rows location).2
  else if location = 540 ∧ 200 < n then message rows n
  else old

def picture (rows : List (List (UInt8 × UInt8))) (old : Nat → UInt8) (n : Nat) : Nat → UInt8 :=
  fun x => if x % 2 = 0 ∧ x / 2 < cells then cellPicture rows (old x) n (x / 2) else old x

def frameEntry (location : UInt16) (pair : UInt8 × UInt8) : Entry :=
  ⟨location, pair.1, pair.2, 15, 15, 0, 0⟩

def addCells (us : List BlinkStruct) (t : Cells) : Cells :=
  us.foldl (fun t u => t.add u.toEntry) t

variable {old : Nat → UInt8} {t : Cells} {us : List BlinkStruct} {u : BlinkStruct} {s : State}
  {b : BlinkStruct} {rows : List (List (UInt8 × UInt8))} {r : List (UInt8 × UInt8)} {row col : Nat}
  {location : UInt16}

def Sorted (us : List BlinkStruct) : Prop :=
  us.Pairwise fun u v => u.location.toNat < v.location.toNat

theorem addCells_other (h : ∀ u ∈ us, location ≠ u.location) (t : Cells) :
    addCells us t location = t location := by
  induction us generalizing t with
  | nil => rfl
  | cons u us ih =>
    rw [addCells, List.foldl_cons, ← addCells, ih fun v hv => h v (List.mem_cons_of_mem u hv)]
    exact add_other (h u List.mem_cons_self) t

theorem addCells_mem (hsorted : Sorted us) (hu : u ∈ us) (hcell : u.location.toNat < cells)
    (t : Cells) : addCells us t u.location = ⟨some (added u.toEntry), u.onChar⟩ := by
  induction us generalizing t with
  | nil => cases hu
  | cons v us ih =>
    obtain ⟨hv, hsorted⟩ := List.pairwise_cons.mp hsorted
    rw [addCells, List.foldl_cons, ← addCells]
    obtain rfl | hu := List.mem_cons.mp hu
    · rw [addCells_other, add_self hcell]
      intro w hw heq
      have hlt := hv w hw
      rw [heq] at hlt
      exact Nat.lt_irrefl _ hlt
    · exact ih hsorted hu _

theorem mirrors_addAll (h : Mirrors old s t) (hsorted : Sorted us)
    (hnew : ∀ u ∈ us, u.location ≠ 0 ∧ (t u.location).entry = none) :
    Mirrors old (addAll us s) (addCells us t) := by
  induction us generalizing s t with
  | nil => exact h
  | cons u us ih =>
    obtain ⟨hu, hsorted⟩ := List.pairwise_cons.mp hsorted
    obtain ⟨s', hstep, hnext⟩ := mirrors_step (c := .add u) h fun _ => hnew u List.mem_cons_self
    obtain rfl := Option.some.inj hstep
    refine ih hnext hsorted fun v hv => ?_
    have hlt := hu v hv
    have hne : v.location ≠ u.location := by
      intro heq
      rw [heq] at hlt
      exact Nat.lt_irrefl _ hlt
    obtain ⟨h0, hfree⟩ := hnew v (List.mem_cons_of_mem u hv)
    refine ⟨h0, ?_⟩
    rw [← hfree]
    exact congrArg Cell.entry (add_other hne t)

theorem blinkAt_location (b : BlinkStruct) (row col : Nat) (pair : UInt8 × UInt8)
    (h : row * 80 + col + 40 < 65536) :
    (blinkAt b row col pair).location.toNat = row * 80 + col + 40 := by
  rw [blinkAt, UInt16.toNat_ofNat', Nat.mod_eq_of_lt h]

theorem rowBlinks_sorted (b : BlinkStruct) (h : row * 80 + (col + r.length) + 40 ≤ 65536) :
    Sorted (rowBlinks b row col r) ∧ ∀ u ∈ rowBlinks b row col r,
      row * 80 + col + 40 ≤ u.location.toNat ∧ u.location.toNat < row * 80 + (col + r.length) + 40 := by
  induction r generalizing col with
  | nil => exact ⟨List.Pairwise.nil, fun u hu => absurd hu List.not_mem_nil⟩
  | cons pair r ih =>
    rw [List.length_cons] at h ⊢
    have hrow : row * 80 + (col + 1 + r.length) + 40 ≤ 65536 := by omega
    obtain ⟨hsorted, hbound⟩ := ih hrow
    rw [rowBlinks]
    have hlater : ∀ u ∈ rowBlinks b row (col + 1) r, row * 80 + col + 40 < u.location.toNat ∧
        u.location.toNat < row * 80 + (col + (r.length + 1)) + 40 := by
      intro u hu
      have hu' := hbound u hu
      omega
    split
    · exact ⟨hsorted, fun u hu => ⟨(hlater u hu).1.le, (hlater u hu).2⟩⟩
    · have hfirst := blinkAt_location b row col pair (by omega)
      refine ⟨List.pairwise_cons.mpr ⟨fun u hu => ?_, hsorted⟩, fun u hu => ?_⟩
      · rw [hfirst]
        exact (hlater u hu).1
      · obtain rfl | hu := List.mem_cons.mp hu
        · rw [hfirst]
          omega
        · exact ⟨(hlater u hu).1.le, (hlater u hu).2⟩

theorem filmBlinks_sorted (b : BlinkStruct) (hcols : ∀ r ∈ rows, r.length ≤ 80)
    (hrows : (row + rows.length) * 80 + 40 ≤ 65536) :
    Sorted (filmBlinks b row rows) ∧
      ∀ u ∈ filmBlinks b row rows, row * 80 + 40 ≤ u.location.toNat := by
  induction rows generalizing row with
  | nil => exact ⟨List.Pairwise.nil, fun u hu => absurd hu List.not_mem_nil⟩
  | cons r rows ih =>
    rw [List.length_cons] at hrows
    have hr := hcols r List.mem_cons_self
    have hrest : (row + 1 + rows.length) * 80 + 40 ≤ 65536 := by omega
    have hfirst : row * 80 + (0 + r.length) + 40 ≤ 65536 := by omega
    obtain ⟨hsorted, hbound⟩ := ih (fun r hr => hcols r (List.mem_cons_of_mem _ hr)) hrest
    obtain ⟨hsorted', hbound'⟩ := rowBlinks_sorted b hfirst
    rw [filmBlinks]
    refine ⟨List.pairwise_append.mpr ⟨hsorted', hsorted, fun u hu v hv => ?_⟩, fun u hu => ?_⟩
    · have hu' := hbound' u hu
      have hv' := hbound v hv
      omega
    · obtain hu | hu := List.mem_append.mp hu
      · have hu' := hbound' u hu
        omega
      · have hu' := hbound u hu
        omega

theorem mem_rowBlinks : u ∈ rowBlinks b row col r ↔
    ∃ i pair, r[i]? = some pair ∧ pair ≠ (32, 32) ∧ u = blinkAt b row (col + i) pair := by
  induction r generalizing col with
  | nil => simp [rowBlinks]
  | cons pair r ih =>
    have hrest : (∃ i pair', (pair :: r)[i]? = some pair' ∧ pair' ≠ (32, 32) ∧
        u = blinkAt b row (col + i) pair') ↔ (pair ≠ (32, 32) ∧ u = blinkAt b row col pair) ∨
        ∃ i pair', r[i]? = some pair' ∧ pair' ≠ (32, 32) ∧ u = blinkAt b row (col + 1 + i) pair' := by
      constructor
      · rintro ⟨i, pair', hi, hne, hu⟩
        cases i with
        | zero =>
          obtain rfl := Option.some.inj hi
          exact Or.inl ⟨hne, hu⟩
        | succ i => exact Or.inr ⟨i, pair', hi, hne, by rw [hu, Nat.add_assoc, Nat.add_comm 1]⟩
      · rintro (⟨hne, hu⟩ | ⟨i, pair', hi, hne, hu⟩)
        · exact ⟨0, pair, rfl, hne, hu⟩
        · exact ⟨i + 1, pair', hi, hne, by rw [hu, Nat.add_assoc, Nat.add_comm 1]⟩
    rw [hrest, rowBlinks]
    by_cases hblank : pair = (32, 32)
    · rw [if_pos hblank, ih]
      simp [hblank]
    · rw [if_neg hblank, List.mem_cons, ih]
      simp [hblank]

theorem mem_filmBlinks : u ∈ filmBlinks b row rows ↔ ∃ j r i pair, rows[j]? = some r ∧
    r[i]? = some pair ∧ pair ≠ (32, 32) ∧ u = blinkAt b (row + j) i pair := by
  induction rows generalizing row with
  | nil => simp [filmBlinks]
  | cons r rows ih =>
    rw [filmBlinks, List.mem_append, ih, mem_rowBlinks]
    constructor
    · rintro (⟨i, pair, hi, hne, hu⟩ | ⟨j, r', i, pair, hj, hi, hne, hu⟩)
      · exact ⟨0, r, i, pair, rfl, hi, hne, by rw [hu, Nat.zero_add, Nat.add_zero]⟩
      · exact ⟨j + 1, r', i, pair, hj, hi, hne, by rw [hu, Nat.add_assoc, Nat.add_comm 1]⟩
    · rintro ⟨j, r', i, pair, hj, hi, hne, hu⟩
      cases j with
      | zero =>
        obtain rfl := Option.some.inj hj
        exact Or.inl ⟨i, pair, hi, hne, by rw [hu, Nat.zero_add, Nat.add_zero]⟩
      | succ j => exact Or.inr ⟨j, r', i, pair, hj, hi, hne, by rw [hu, Nat.add_assoc, Nat.add_comm 1]⟩

theorem getD_pair {l : List (UInt8 × UInt8)} {i : Nat} {pair : UInt8 × UInt8} (hne : pair ≠ (32, 32)) :
    l.getD i (32, 32) = pair ↔ l[i]? = some pair := by
  rw [List.getD_eq_getElem?_getD]
  cases l[i]? with
  | none => exact iff_of_false hne.symm (Option.some_ne_none _).symm
  | some pair' => simp

theorem pairAt_iff (h : Fits rows) {n : Nat} {pair : UInt8 × UInt8} (hne : pair ≠ (32, 32)) :
    pairAt rows n = pair ↔ ∃ j r i, rows[j]? = some r ∧ r[i]? = some pair ∧ n = j * 80 + i + 40 := by
  constructor
  · intro hpair
    rw [pairAt] at hpair
    split at hpair
    · exact absurd hpair.symm hne
    · next hn =>
      rw [getD_pair hne, List.getD_eq_getElem?_getD] at hpair
      cases hr : rows[(n - 40) / 80]? with
      | none =>
        rw [hr] at hpair
        simp at hpair
      | some r =>
        rw [hr, Option.getD_some] at hpair
        exact ⟨_, r, _, hr, hpair, by omega⟩
  · rintro ⟨j, r, i, hj, hi, rfl⟩
    have hcol : i < 80 := (List.getElem?_eq_some_iff.mp hi).1.trans_le
      (h.cols r (List.mem_of_getElem? hj))
    have hrow : (j * 80 + i + 40 - 40) / 80 = j ∧ (j * 80 + i + 40 - 40) % 80 = i := by omega
    rw [pairAt, if_neg (by omega), hrow.1, hrow.2, getD_pair hne, List.getD_eq_getElem?_getD, hj,
      Option.getD_some, hi]

theorem addCells_film (h : Fits rows) (hon : b.onLength = 15) (hoff : b.offLength = 15)
    (hcell : location.toNat < cells) :
    addCells (filmBlinks b 0 rows) (blank old) location =
      if pairAt rows location.toNat ≠ (32, 32) then
        ⟨some (added (frameEntry location (pairAt rows location.toNat))), (pairAt rows location.toNat).1⟩
      else blank old location := by
  have hsmall : (0 + rows.length) * 80 + 40 ≤ 65536 := by
    have hle := h.rows
    omega
  by_cases hne : pairAt rows location.toNat ≠ (32, 32)
  · obtain ⟨j, r, i, hj, hi, hloc⟩ := (pairAt_iff h hne).mp rfl
    have hmem : blinkAt b (0 + j) i (pairAt rows location.toNat) ∈ filmBlinks b 0 rows :=
      mem_filmBlinks.mpr ⟨j, r, i, _, hj, hi, hne, rfl⟩
    have hlocation : (blinkAt b (0 + j) i (pairAt rows location.toNat)).location = location := by
      apply UInt16.toNat_inj.mp
      rw [blinkAt_location _ _ _ _ (by rw [Nat.zero_add, ← hloc]; exact location.toNat_lt), Nat.zero_add, hloc]
    have hsorted := (filmBlinks_sorted b h.cols hsmall).1
    have hcellAt := addCells_mem hsorted hmem (by rwa [hlocation]) (blank old)
    rw [hlocation] at hcellAt
    rw [if_pos hne, hcellAt]
    congr 2
    simp only [added, blinkAt, frameEntry, hon, hoff, ← hloc, Nat.zero_add, UInt16.ofNat_toNat]
  · rw [if_neg hne]
    apply addCells_other
    rintro u hu rfl
    obtain ⟨j, r, i, pair, hj, hi, hpair, rfl⟩ := mem_filmBlinks.mp hu
    have hcol : i < 80 := (List.getElem?_eq_some_iff.mp hi).1.trans_le
      (h.cols r (List.mem_of_getElem? hj))
    have hrow : j < rows.length := (List.getElem?_eq_some_iff.mp hj).1
    have hlocation := blinkAt_location b (0 + j) i pair (by omega)
    rw [hlocation, (pairAt_iff h hpair).mpr ⟨j, r, i, hj, hi, by omega⟩] at hne
    exact hne hpair

theorem mirrors_film (h : Fits rows) (b : BlinkStruct) (old : Nat → UInt8) :
    Mirrors old (addAll (filmBlinks b 0 rows) (start old)) (addCells (filmBlinks b 0 rows) (blank old)) := by
  have hsmall : (0 + rows.length) * 80 + 40 ≤ 65536 := by
    have hle := h.rows
    omega
  obtain ⟨hsorted, hbound⟩ := filmBlinks_sorted b h.cols hsmall
  refine mirrors_addAll (mirrors_start old) hsorted fun u hu => ⟨?_, rfl⟩
  have hlow := hbound u hu
  rintro h0
  rw [h0, UInt16.toNat_zero] at hlow
  omega

def screenOf (old : Nat → UInt8) (t : Cells) : Nat → UInt8 :=
  fun x => if x % 2 = 0 ∧ x / 2 < cells then (t (UInt16.ofNat (x / 2))).char else old x

theorem mirrors_screen (h : Mirrors old s t) : s.vmem = screenOf old t := by
  funext x
  rw [screenOf]
  split
  · next hx =>
    have hoffset : screenOffset (UInt16.ofNat (x / 2)) = x := by
      have hcells : x / 2 < 2000 := hx.2
      rw [screenOffset, UInt16.toNat_ofNat', Nat.mod_eq_of_lt (by omega)]
      omega
    rw [← hoffset, h.char, hoffset]
  · next hx =>
    apply h.outside
    rintro location hlocation rfl
    apply hx
    rw [screenOffset]
    exact ⟨by omega, by omega⟩

def Cells.ticks (n : Nat) (t : Cells) : Cells := fun location => Cell.tick^[n] (t location)

theorem ticks_succ (n : Nat) (t : Cells) :
    Cells.ticks (n + 1) t = Cells.ticks n (t.step .tasklet) := by
  funext location
  exact Function.iterate_succ_apply _ _ _

def screens (old : Nat → UInt8) (t : Cells) (n : Nat) : List (Nat → UInt8) :=
  (List.range n).map fun i => screenOf old (Cells.ticks (i + 1) t)

structure Clock (k : Kernel) (fd : Int) : Prop where
  valid : 2 ≤ fd ∧ fd ≤ maxFdNum
  used : (entryAt k fd).flags ≠ 0
  ops : (entryAt k fd).fOp = some .rtc

variable {sys : System} {fd : Int} {garbage : Nat} {p : Process}

theorem read_clock (h : Clock p.kernel fd) (hg : garbage ≠ 0) :
    ece391Read sys fd garbage 4 p = some (0, p) := by
  have hdispatch : readDispatch fd garbage p.kernel = .enter .rtc :=
    readDispatch_file h.valid hg h.used h.ops
  simp only [ece391Read, hdispatch]

theorem tickLoop_eq (sys : System) (shots : List (Nat → UInt8)) (hclock : Clock p.kernel fd)
    (hg : garbage ≠ 0) (h : Mirrors old s t) (n : Nat) :
    ∃ s', tickLoop sys fd garbage n ⟨p, s, shots⟩ = some ⟨p, s', shots ++ screens old t n⟩ ∧
      Mirrors old s' (Cells.ticks n t) := by
  induction n generalizing s t shots with
  | zero => exact ⟨s, by simp [tickLoop, screens], h⟩
  | succ n ih =>
    obtain ⟨s₁, hstep, hnext⟩ := mirrors_step (c := .tasklet) h trivial
    obtain ⟨s', hloop, hmirrors⟩ := ih (shots ++ [s₁.vmem]) hnext
    have htasklet : mp1RtcTasklet s = some s₁ := hstep
    have hscreens : screens old t (n + 1) = s₁.vmem :: screens old (t.step .tasklet) n := by
      rw [screens, List.range_succ_eq_map, List.map_cons, List.map_map, mirrors_screen hnext, screens]
      congr 1
    refine ⟨s', ?_, ?_⟩
    · simp only [tickLoop, read_clock hclock hg, htasklet, Option.bind_eq_bind, Option.bind_some]
      rw [hloop, hscreens, List.append_assoc, List.singleton_append]
    · rw [ticks_succ]
      exact hmirrors

theorem tick_none {c : Cell} (h : c.entry = none) (n : Nat) : Cell.tick^[n] c = c := by
  apply Function.iterate_fixed
  rw [Cell.tick, h]

def messageStruct (v : Variables) : BlinkStruct :=
  { v.blinkStruct with
    onChar := 73, offChar := 77, onLength := 7, offLength := 6, location := 6 * 80 + 60 }

def withMessage (v : Variables) (t : Cells) : Cells :=
  (Cells.ticks wait t).add (messageStruct v).toEntry

def withSync (v : Variables) (t : Cells) : Cells := (Cells.ticks wait (withMessage v t)).sync 40 540

def withRemoval (v : Variables) (t : Cells) : Cells :=
  (Cells.ticks wait (withSync v t)).remove 200

def allScreens (old : Nat → UInt8) (v : Variables) (t : Cells) : List (Nat → UInt8) :=
  screens old t wait ++ screens old (withMessage v t) wait ++ screens old (withSync v t) wait ++
    screens old (withRemoval v t) (80 * 25)

theorem write_clock (h : Clock p.kernel fd) {addr : Nat} (haddr : addr ≠ 0) (buf : Memory UInt8) :
    ece391Write fd addr buf 4 p = some (rtcWrite (load32 buf 0), p) := by
  have hvalid : ¬ (maxFdNum < fd ∨ fd < 0 ∨ fd = 0 ∨ addr = 0) := by
    have hv := h.valid
    omega
  have hdispatch : writeDispatch fd addr p.kernel = .enter .rtc := by
    simp only [writeDispatch, dispatchExcept, if_neg hvalid, if_neg h.used, h.ops]
  simp only [ece391Write, hdispatch]

theorem call_and_ticks (sys : System) (shots : List (Nat → UInt8)) (c : Call)
    (hclock : Clock p.kernel fd) (hg : garbage ≠ 0) (h : Mirrors old s t) (hnew : NewCell t c) (n : Nat) : ∃ s₁ s₂, Blink.step s c = some s₁ ∧
      tickLoop sys fd garbage n ⟨p, s₁, shots⟩ = some ⟨p, s₂, shots ++ screens old (t.step c) n⟩ ∧
      Mirrors old s₂ (Cells.ticks n (t.step c)) := by
  obtain ⟨s₁, hstep, hnext⟩ := mirrors_step h hnew
  obtain ⟨s₂, hloop, hmirrors⟩ := tickLoop_eq sys shots hclock hg hnext n
  exact ⟨s₁, s₂, hstep, hloop, hmirrors⟩

theorem step_sync {arg : UInt32} {s' : State} (h : Blink.step s (.sync arg) = some s') :
    ∃ value, mp1IoctlSync arg s = some (value, s') := by
  obtain ⟨⟨value, s''⟩, hsync, rfl⟩ := Option.map_eq_some_iff.mp h
  exact ⟨value, hsync⟩

theorem step_remove {arg : UInt32} {s' : State} (h : Blink.step s (.remove arg) = some s') :
    ∃ value, mp1IoctlRemove arg s = some (value, s') := by
  obtain ⟨⟨value, s''⟩, hremove, rfl⟩ := Option.map_eq_some_iff.mp h
  exact ⟨value, hremove⟩

theorem newCell_message (v : Variables) (hfree : (t 540).entry = none) :
    NewCell (Cells.ticks wait t) (.add (messageStruct v)) := by
  intro _
  have h0 : (6 * 80 + 60 : UInt16) ≠ 0 := by decide
  refine ⟨h0, ?_⟩
  change (Cell.tick^[wait] (t 540)).entry = none
  rw [tick_none hfree, hfree]

theorem playLoop_eq (sys : System) (v : Variables) (shots : List (Nat → UInt8)) (hclock : Clock p.kernel fd) (hg : v.garbage ≠ 0)
    (hr : v.retVal ≠ 0) (h : Mirrors old s t) (hfree : (t 540).entry = none) :
    ∃ q, playLoop sys v fd ⟨p, s, shots⟩ = some (0, q) ∧ q.shots = shots ++ allScreens old v t := by
  obtain ⟨b₁, hloop₁, hm₁⟩ := tickLoop_eq sys shots hclock hg h wait
  obtain ⟨s₂, b₂, hadd, hloop₂, hm₂⟩ := call_and_ticks sys (shots ++ screens old t wait)
    (.add (messageStruct v)) hclock hg hm₁ (newCell_message v hfree) wait
  obtain ⟨s₃, b₃, hsync, hloop₃, hm₃⟩ := call_and_ticks sys
    (shots ++ screens old t wait ++ screens old (withMessage v t) wait) (.sync 0x28021C) hclock hg hm₂ trivial wait
  obtain ⟨s₄, b₄, hremove, hloop₄, -⟩ := call_and_ticks sys
    (shots ++ screens old t wait ++ screens old (withMessage v t) wait ++ screens old (withSync v t) wait)
    (.remove (UInt32.ofNat wait)) hclock hg hm₃ trivial (80 * 25)
  have hadd' : (mp1IoctlAdd (messageStruct v) b₁).2 = s₂ := Option.some.inj hadd
  obtain ⟨value₃, hsync'⟩ := step_sync hsync
  obtain ⟨value₄, hremove'⟩ := step_remove hremove
  have harg : ((40 : UInt32) <<< 16 ||| (6 * 80 + 60 : UInt32)) = 0x28021C := by decide
  refine ⟨⟨(ece391Close fd p).2, b₄, shots ++ allScreens old v t⟩, ?_, rfl⟩
  rw [messageStruct] at hadd'
  simp only [playLoop, write_clock hclock hr, hloop₁, Option.bind_eq_bind, Option.bind_some, harg, hadd']
  refine Option.bind_eq_some_iff.mpr ⟨_, hloop₂, ?_⟩
  refine Option.bind_eq_some_iff.mpr ⟨_, hsync', ?_⟩
  refine Option.bind_eq_some_iff.mpr ⟨_, hloop₃, ?_⟩
  refine Option.bind_eq_some_iff.mpr ⟨_, hremove', ?_⟩
  refine Option.bind_eq_some_iff.mpr ⟨_, hloop₄, ?_⟩
  simp only [allScreens, List.append_assoc]
  rfl

theorem ticks_ticks (k n : Nat) (c : Cell) : Cell.tick^[k] (Cell.tick^[n] c) = Cell.tick^[n + k] c := by
  rw [Nat.add_comm, Function.iterate_add_apply]

theorem withMessage_other (v : Variables) (h : location ≠ 540) (t : Cells) (k : Nat) :
    Cells.ticks k (withMessage v t) location = Cell.tick^[200 + k] (t location) := by
  have hadd : withMessage v t location = Cell.tick^[200] (t location) :=
    add_other (u := messageStruct v) h (Cells.ticks wait t)
  rw [Cells.ticks, hadd, ticks_ticks]

theorem withSync_other (v : Variables) (h : location ≠ 540) (t : Cells) (k : Nat) :
    Cells.ticks k (withSync v t) location = Cell.tick^[400 + k] (t location) := by
  have hsync : withSync v t location = Cell.tick^[200 + 200] (t location) :=
    (sync_other h 40 _).trans (withMessage_other v h t wait)
  rw [Cells.ticks, hsync, ticks_ticks]

theorem withRemoval_other (v : Variables) (h : location ≠ 200) (t : Cells) (k : Nat) :
    Cells.ticks k (withRemoval v t) location = Cells.ticks (200 + k) (withSync v t) location := by
  have hremove : withRemoval v t location = Cell.tick^[200] (withSync v t location) :=
    Function.update_of_ne h _ _
  rw [Cells.ticks, Cells.ticks, hremove, ticks_ticks]

theorem withRemoval_self (v : Variables) (t : Cells) (k : Nat) :
    (Cells.ticks k (withRemoval v t) 200).char = (Cells.ticks 200 (withSync v t) 200).char := by
  have hremove : withRemoval v t 200 = ⟨none, (Cells.ticks 200 (withSync v t) 200).char⟩ := by
    rw [withRemoval, Cells.remove, Function.update_self]
    rfl
  rw [Cells.ticks, hremove, tick_none rfl]

theorem rhythmic_frame (location : UInt16) (pair : UInt8 × UInt8) :
    Rhythmic (frameEntry location pair) := by
  have h15 : 0 < (15 : UInt16).toNat ∧ (15 : UInt16).toNat ≤ 32768 := by decide
  exact ⟨h15, h15⟩

theorem litChar_frame (location : UInt16) (pair : UInt8 × UInt8) (n : Nat) :
    litChar (frameEntry location pair) n = if n / 15 % 2 = 0 then pair.1 else pair.2 := by
  have hon : On (frameEntry location pair) n ↔ n / 15 % 2 = 0 := by
    change n % 30 < 15 ↔ _
    omega
  simp only [litChar, hon]
  rfl

def Starts (rows : List (List (UInt8 × UInt8))) (old : Nat → UInt8) (t : Cells) : Prop :=
  ∀ location : UInt16, location.toNat < cells → t location =
    if pairAt rows location.toNat ≠ (32, 32) then
      ⟨some (added (frameEntry location (pairAt rows location.toNat))), (pairAt rows location.toNat).1⟩
    else blank old location

theorem starts_pair (h : Starts rows old t) (hcell : location.toNat < cells)
    (hpair : pairAt rows location.toNat ≠ (32, 32)) (n : Nat) : Cell.tick^[n] (t location) =
      ⟨some (phase (frameEntry location (pairAt rows location.toNat)) n),
        if n / 15 % 2 = 0 then (pairAt rows location.toNat).1 else (pairAt rows location.toNat).2⟩ := by
  have hr := rhythmic_frame location (pairAt rows location.toNat)
  have hchar := litChar_frame location (pairAt rows location.toNat) 0
  have hticks := cell_ticks hr 0 n
  rw [hchar, if_pos rfl, Nat.zero_add, litChar_frame] at hticks
  rw [h location hcell, if_pos hpair, phase_added hr, hticks]

theorem starts_blank (h : Starts rows old t) (hcell : location.toNat < cells)
    (hpair : ¬ pairAt rows location.toNat ≠ (32, 32)) (n : Nat) :
    Cell.tick^[n] (t location) = blank old location := by
  rw [h location hcell, if_neg hpair]
  exact tick_none rfl n

theorem starts_char (h : Starts rows old t) (hcell : location.toNat < cells) (hne : location ≠ 540)
    {n k : Nat} (hk : k = if location = 200 then min n 600 else n) :
    (Cell.tick^[k] (t location)).char =
      cellPicture rows (old (screenOffset location)) n location.toNat := by
  have hne' : location.toNat ≠ 540 := fun h540 => hne (UInt16.toNat_inj.mp h540)
  have h200 : location.toNat = 200 ↔ location = 200 := UInt16.toNat_inj (b := 200)
  simp only [cellPicture, hne', false_and, if_false, h200, ← hk]
  by_cases hpair : pairAt rows location.toNat ≠ (32, 32)
  · rw [if_pos hpair, starts_pair h hcell hpair]
  · rw [if_neg hpair, starts_blank h hcell hpair]
    rfl

theorem rhythmic_message (v : Variables) : Rhythmic (messageStruct v).toEntry := by
  have hon : 0 < (7 : UInt16).toNat ∧ (7 : UInt16).toNat ≤ 32768 := by decide
  have hoff : 0 < (6 : UInt16).toNat ∧ (6 : UInt16).toNat ≤ 32768 := by decide
  exact ⟨hon, hoff⟩

theorem litChar_message (v : Variables) (n : Nat) :
    litChar (messageStruct v).toEntry n = if n % 13 < 7 then 73 else 77 := rfl

theorem message_ticks (v : Variables) (t : Cells) (k : Nat) :
    Cell.tick^[k] (withMessage v t 540) = ⟨some (phase (messageStruct v).toEntry k),
      if k % 13 < 7 then 73 else 77⟩ := by
  have hcell : (messageStruct v).location.toNat < cells := by
    have h540 : (6 * 80 + 60 : UInt16).toNat < 2000 := by decide
    exact h540
  have hadd : withMessage v t 540 = ⟨some (added (messageStruct v).toEntry), 73⟩ :=
    add_self hcell (Cells.ticks wait t)
  have hticks := cell_ticks (rhythmic_message v) 0 k
  rw [litChar_message, litChar_message, Nat.zero_add, if_pos (by decide)] at hticks
  rw [hadd, phase_added (rhythmic_message v), hticks]

def syncedMessage (v : Variables) : Entry :=
  { (messageStruct v).toEntry with onLength := 15, offLength := 15 }

theorem rhythmic_synced (v : Variables) : Rhythmic (syncedMessage v) := by
  have h15 : 0 < (15 : UInt16).toNat ∧ (15 : UInt16).toNat ≤ 32768 := by decide
  exact ⟨h15, h15⟩

theorem litChar_synced (v : Variables) (n : Nat) :
    litChar (syncedMessage v) n = if n / 15 % 2 = 0 then 73 else 77 := by
  have hon : On (syncedMessage v) n ↔ n / 15 % 2 = 0 := by
    change n % 30 < 15 ↔ _
    omega
  simp only [litChar, hon]
  rfl

theorem sync_found (h : Starts rows old t) (v : Variables) (hpair : pairAt rows 40 ≠ (32, 32)) (k : Nat) :
    (Cell.tick^[k] (withSync v t 540)).char =
      if k < 5 then 77 else if (400 + k) / 15 % 2 = 0 then 73 else 77 := by
  have hcell : (40 : UInt16).toNat < cells := by decide
  have hsource : Cells.ticks wait (withMessage v t) 40 =
      Cell.tick^[200 + 200] (t 40) := withMessage_other v (by decide) t wait
  have htarget := message_ticks v t wait
  have hsync : withSync v t 540 = ⟨some (phase (syncedMessage v) 400), 77⟩ := by
    have htarget' : Cells.ticks wait (withMessage v t) 540 = Cell.tick^[wait] (withMessage v t 540) := rfl
    rw [withSync, Cells.sync, hsource, starts_pair h hcell hpair, htarget', htarget]
    exact Function.update_self _ _ _
  have hon : On (syncedMessage v) 400 := show 400 % 30 < 15 by decide
  have hremaining : remaining (syncedMessage v) 400 = 5 :=
    (remaining_on hon).trans (show 15 - 400 % 30 = 5 by decide)
  rw [hsync, cell_ticks_late (rhythmic_synced v), hremaining, litChar_synced]

theorem sync_missed (h : Starts rows old t) (v : Variables) (hpair : pairAt rows 40 = (32, 32)) (k : Nat) :
    (Cell.tick^[k] (withSync v t 540)).char = if (200 + k) % 13 < 7 then 73 else 77 := by
  have hcell : (40 : UInt16).toNat < cells := by decide
  have hsource : Cells.ticks wait (withMessage v t) 40 =
      Cell.tick^[200 + 200] (t 40) := withMessage_other v (by decide) t wait
  have hsync : withSync v t 540 = Cell.tick^[200] (withMessage v t 540) := by
    rw [withSync, Cells.sync, hsource, starts_blank h hcell (not_not.mpr hpair)]
    rfl
  rw [hsync, ticks_ticks, message_ticks]

theorem synced_char (h : Starts rows old t) (v : Variables) (k : Nat) (hk : 0 < k) :
    (Cell.tick^[k] (withSync v t 540)).char = message rows (400 + k) := by
  by_cases hpair : pairAt rows 40 = (32, 32)
  · have hn : 400 + k - 200 = 200 + k := by omega
    rw [sync_missed h v hpair, message, if_pos (Or.inr hpair), hn]
  · have hlate : ¬ (400 + k ≤ 400 ∨ pairAt rows 40 = (32, 32)) := by
      rintro (hle | hno)
      · omega
      · exact hpair hno
    have hfive : 400 + k < 405 ↔ k < 5 := by omega
    rw [sync_found h v hpair, message, if_neg hlate]
    simp only [hfive]

theorem screens_eq {n₀ n : Nat} (h : ∀ k, 0 < k → k ≤ n → ∀ location : UInt16, location.toNat < cells →
    (Cells.ticks k t location).char =
      cellPicture rows (old (screenOffset location)) (n₀ + k) location.toNat) :
    screens old t n = (List.range n).map fun i => picture rows old (n₀ + i + 1) := by
  apply List.map_congr_left
  intro i hi
  have hlt := List.mem_range.mp hi
  funext x
  rw [screenOf, picture]
  split
  · next hx =>
    have hloc : (UInt16.ofNat (x / 2)).toNat = x / 2 := by
      have hcells : x / 2 < 2000 := hx.2
      rw [UInt16.toNat_ofNat', Nat.mod_eq_of_lt (by omega)]
    have hoffset : screenOffset (UInt16.ofNat (x / 2)) = x := by
      rw [screenOffset, hloc]
      omega
    rw [h (i + 1) (Nat.succ_pos i) hlt _ (by rw [hloc]; exact hx.2), hloc, hoffset, Nat.add_assoc]
  · rfl

theorem message_char (v : Variables) (hblank : pairAt rows 540 = (32, 32)) (old : UInt8) {k : Nat}
    (hk : 0 < k ∧ k ≤ 200) : (Cell.tick^[k] (withMessage v t 540)).char =
      cellPicture rows old (200 + k) 540 := by
  have hshown : (540 : Nat) = 540 ∧ 200 < 200 + k := ⟨rfl, by omega⟩
  have hearly : 200 + k ≤ 400 ∨ pairAt rows 40 = (32, 32) := Or.inl (by omega)
  rw [message_ticks, cellPicture, if_neg (not_not.mpr hblank), if_pos hshown, message, if_pos hearly,
    Nat.add_sub_cancel_left]

theorem message_late (h : Starts rows old t) (v : Variables) (hblank : pairAt rows 540 = (32, 32))
    (ch : UInt8) {k : Nat} (hk : 0 < k) : (Cell.tick^[k] (withSync v t 540)).char =
      cellPicture rows ch (400 + k) 540 := by
  have hshown : (540 : Nat) = 540 ∧ 200 < 400 + k := ⟨rfl, by omega⟩
  rw [synced_char h v k hk, cellPicture, if_neg (not_not.mpr hblank), if_pos hshown]

theorem film_char (h : Starts rows old t) (hblank : pairAt rows 540 = (32, 32)) {k : Nat}
    (hk : k ≤ 200) (hcell : location.toNat < cells) : (Cells.ticks k t location).char =
      cellPicture rows (old (screenOffset location)) k location.toNat := by
  by_cases hl : location = 540
  · have h540 : location.toNat = 540 := UInt16.toNat_inj (b := 540) |>.mpr hl
    have hpair : ¬ pairAt rows location.toNat ≠ (32, 32) := by
      rw [h540]
      exact not_not.mpr hblank
    have hearly : ¬ (location.toNat = 540 ∧ 200 < k) := by omega
    rw [Cells.ticks, starts_blank h hcell hpair, cellPicture, if_neg hpair, if_neg hearly]
    rfl
  · apply starts_char h hcell hl
    split <;> omega

theorem withMessage_char (h : Starts rows old t) (v : Variables) (hblank : pairAt rows 540 = (32, 32))
    {k : Nat} (hk : 0 < k ∧ k ≤ 200) (hcell : location.toNat < cells) :
    (Cells.ticks k (withMessage v t) location).char =
      cellPicture rows (old (screenOffset location)) (200 + k) location.toNat := by
  by_cases hl : location = 540
  · subst hl
    exact message_char v hblank _ hk
  · rw [withMessage_other v hl]
    apply starts_char h hcell hl
    split <;> omega

theorem withSync_char (h : Starts rows old t) (v : Variables) (hblank : pairAt rows 540 = (32, 32))
    {k : Nat} (hk : 0 < k ∧ k ≤ 200) (hcell : location.toNat < cells) :
    (Cells.ticks k (withSync v t) location).char =
      cellPicture rows (old (screenOffset location)) (400 + k) location.toNat := by
  by_cases hl : location = 540
  · subst hl
    exact message_late h v hblank _ hk.1
  · rw [withSync_other v hl]
    apply starts_char h hcell hl
    split <;> omega

theorem withRemoval_char (h : Starts rows old t) (v : Variables) (hblank : pairAt rows 540 = (32, 32))
    {k : Nat} (hcell : location.toNat < cells) :
    (Cells.ticks k (withRemoval v t) location).char =
      cellPicture rows (old (screenOffset location)) (600 + k) location.toNat := by
  by_cases h200 : location = 200
  · subst h200
    have hne : (200 : UInt16) ≠ 540 := by decide
    rw [withRemoval_self, withSync_other v hne]
    apply starts_char h hcell hne
    rw [if_pos rfl, Nat.min_eq_right (by omega)]
  · rw [withRemoval_other v h200]
    by_cases hl : location = 540
    · subst hl
      have hlate := message_late h v hblank (old (screenOffset 540)) (k := 200 + k) (by omega)
      rwa [← Nat.add_assoc] at hlate
    · rw [withSync_other v hl]
      apply starts_char h hcell hl
      rw [if_neg h200]
      omega

theorem allScreens_eq (h : Starts rows old t) (v : Variables) (hblank : pairAt rows 540 = (32, 32)) :
    allScreens old v t = (List.range 2600).map fun i => picture rows old (i + 1) := by
  have hsplit : List.range 2600 = List.range 200 ++ (List.range 200).map (200 + ·) ++
      (List.range 200).map (400 + ·) ++ (List.range 2000).map (600 + ·) := by
    rw [← List.range_add, ← List.range_add, ← List.range_add]
  have hfilm : screens old t wait = (List.range wait).map fun i => picture rows old (0 + i + 1) :=
    screens_eq fun k _ hk location hcell => by
      rw [Nat.zero_add]
      exact film_char h hblank hk hcell
  have hmessage : screens old (withMessage v t) wait =
      (List.range wait).map fun i => picture rows old (200 + i + 1) :=
    screens_eq fun k h0 hk location hcell => withMessage_char h v hblank ⟨h0, hk⟩ hcell
  have hsync : screens old (withSync v t) wait =
      (List.range wait).map fun i => picture rows old (400 + i + 1) :=
    screens_eq fun k h0 hk location hcell => withSync_char h v hblank ⟨h0, hk⟩ hcell
  have hremoval : screens old (withRemoval v t) (80 * 25) =
      (List.range (80 * 25)).map fun i => picture rows old (600 + i + 1) :=
    screens_eq fun k _ _ location hcell => withRemoval_char h v hblank hcell
  rw [allScreens, hfilm, hmessage, hsync, hremoval, hsplit]
  simp only [List.map_append, List.map_map, Function.comp_def, Nat.zero_add, wait]

structure Launched (sys : System) (v : Variables) (inode0 inode1 : Nat) (file0 file1 : List UInt8)
    (p : Process) : Prop where
  image : imageEnd sys.fs ≤ 4294967296
  own : p.kernel.pid = p.kernel.terminalProcessInfo p.kernel.currentTerminalId
  terminal : IsTerminal p.kernel.currentTerminalId
  free : ∀ fd : Int, 2 ≤ fd → fd ≤ maxFdNum → (entryAt p.kernel fd).flags = 0
  rtc : ∃ dentry, readDentryByName sys.mem sys.fs (byteAt (ascii "rtc")) = some dentry ∧
    dentry.fileType = 0
  frame0 : Stored sys p.mem (ascii "frame0.txt") inode0 file0
  frame1 : Stored sys p.mem (ascii "frame1.txt") inode1 file1
  base : RoundRobin.userProgramPaging ≤ v.vmemBaseAddr ∧ v.vmemBaseAddr < RoundRobin.userProgramEnd
  stored : UserBuffer sys.fs v.vmemBaseAddr 4
  chars : UserBuffer sys.fs v.c0 1 ∧ UserBuffer sys.fs v.c1 1 ∧ v.c0 ≠ v.c1
  notNull : v.garbage ≠ 0 ∧ v.retVal ≠ 0

theorem load32_fill (m : Mem) (a n : Nat) (h : n < 4294967296) :
    load32 (fill m a (fun i => UInt8.ofNat (n / 256 ^ i)) 4) a = n := by
  have hbyte (i : Nat) (hi : i < 4) :
      fill m a (fun i => UInt8.ofNat (n / 256 ^ i)) 4 (a + i) = UInt8.ofNat (n / 256 ^ i) :=
    fill_inside m a _ hi
  have h0 := hbyte 0 (by decide)
  have h1 := hbyte 1 (by decide)
  have h2 := hbyte 2 (by decide)
  have h3 := hbyte 3 (by decide)
  rw [Nat.add_zero] at h0
  simp only [load32, h0, h1, h2, h3, UInt8.toNat_ofNat']
  omega

theorem screenStart_pos {k : Kernel} (h : IsTerminal k.currentTerminalId) :
    0 < screenStart k ∧ screenStart k < 4294967296 := by
  simp only [IsTerminal, terminalMaximum] at h
  simp only [screenStart, u32, RoundRobin.fKb]
  omega

theorem setVideoMode_eq {v : Variables} (hterm : IsTerminal p.kernel.currentTerminalId)
    (hbase : RoundRobin.userProgramPaging ≤ v.vmemBaseAddr ∧
      v.vmemBaseAddr < RoundRobin.userProgramEnd)
    (hbuf : UserBuffer sys.fs v.vmemBaseAddr 4) : ∃ p', mp1SetVideoMode v p =
      (screenStart p.kernel, p') ∧ Touches sys (fun _ => False) p p' := by
  have hrange : ¬ (v.vmemBaseAddr < RoundRobin.userProgramPaging ∨
      RoundRobin.userProgramEnd ≤ v.vmemBaseAddr) := by omega
  have hload := load32_fill p.mem v.vmemBaseAddr _ (screenStart_pos hterm).2
  have hne : ¬ (0 : Int) = -1 := by decide
  have himage := sameImage_fill hbuf.outside p.mem
    fun i => UInt8.ofNat (screenStart p.kernel / 256 ^ i)
  refine ⟨{ p with
    kernel := switchVideoPd (videoMemory + RoundRobin.fKb * 2 * p.kernel.currentTerminalId)
      p.kernel.currentTerminalId p.kernel
    mem := fill p.mem v.vmemBaseAddr (fun i => UInt8.ofNat (screenStart p.kernel / 256 ^ i)) 4 },
    ?_, rfl, rfl, fun _ _ => rfl, himage⟩
  simp only [mp1SetVideoMode, ece391Vidmap, RoundRobin.vidmap, if_neg hrange, if_neg hne, hload]

theorem freeDescriptor_eq {k : Kernel} {fd : Int} (hfd : 2 ≤ fd ∧ fd ≤ 7)
    (hfree : (entryAt k fd).flags = 0)
    (hused : ∀ fd', 2 ≤ fd' → fd' < fd → (entryAt k fd').flags ≠ 0) : freeDescriptor k = some fd := by
  obtain ⟨hlo, hhi⟩ := hfd
  rw [freeDescriptor]
  interval_cases fd <;> simp [hfree, hused]

theorem open_rtc (hrtc : ∃ dentry, readDentryByName sys.mem sys.fs (byteAt (ascii "rtc")) = some dentry ∧
    dentry.fileType = 0) (hfree : freeDescriptor p.kernel = some fd) :
    ∃ p', ece391Open sys (ascii "rtc") p = (fd, p') ∧ Touches sys (fun fd' => fd' = fd) p p' ∧
      entryAt p'.kernel fd = ⟨some .rtc, 0, 0, 1⟩ := by
  obtain ⟨dentry, hname, htype⟩ := hrtc
  have hops : openAs dentry = some (.rtc, 0) := by simp only [openAs, htype]
  refine ⟨_, open_entry hfree hname hops, touches_setEntry rfl fun _ _ _ => rfl, ?_⟩
  rw [entryAt_setEntry, if_pos rfl]

theorem film_added {v : Variables} {inode0 inode1 fuel : Nat} {file0 file1 : List UInt8}
    (h : Launched sys v inode0 inode1 file0 file1 p) (s : State) (hfuel : file0.length + 1 < fuel)
    (hfuel' : file1.length + 1 < fuel) : ∃ p₁ p₂ p₃, mp1SetVideoMode v p = (screenStart p.kernel, p₁) ∧
      ece391Open sys (ascii "rtc") p₁ = (2, p₂) ∧
      addFrames sys fuel v.c0 v.c1 (ascii "frame0.txt") (ascii "frame1.txt") v.frameStruct ⟨p₂, s, []⟩ =
        some (.ok ⟨p₃, addAll (filmBlinks { v.frameStruct with onLength := 15, offLength := 15 } 0
          (film (file0.splitOn 10) (file1.splitOn 10))) s, []⟩) ∧
      Clock p₃.kernel 2 := by
  obtain ⟨p₁, hvideo, ht₁⟩ := setVideoMode_eq h.terminal h.base h.stored
  have hfree (fd : Int) (hfd : 2 ≤ fd ∧ fd ≤ 7) : (entryAt p₁.kernel fd).flags = 0 := by
    rw [ht₁.entries fd id]
    exact h.free fd hfd.1 hfd.2
  obtain ⟨p₂, hrtc, ht₂, hclock⟩ := open_rtc (p := p₁) h.rtc
    (freeDescriptor_eq ⟨le_rfl, by decide⟩ (hfree 2 (by decide)) fun fd' hlo hhi => by omega)
  have hfree₂ (fd : Int) (hfd : 3 ≤ fd ∧ fd ≤ 7) : (entryAt p₂.kernel fd).flags = 0 := by
    rw [ht₂.entries fd (by omega)]
    exact hfree fd ⟨by omega, hfd.2⟩
  have hused₂ : (entryAt p₂.kernel 2).flags ≠ 0 := by
    rw [hclock]
    exact Nat.one_ne_zero
  have hnext : freeDescriptor p₂.kernel = some 3 := by
    refine freeDescriptor_eq (by decide) (hfree₂ 3 (by decide)) fun fd' hlo hhi => ?_
    rwa [show fd' = 2 by omega]
  have hnext' : freeDescriptor (withFile 3 inode0 p₂).kernel = some 4 := by
    have hopened : Touches sys (fun fd => fd = 3) p₂ (withFile 3 inode0 p₂) := touches_withFile _ _ _
    refine freeDescriptor_eq (by decide) ?_ fun fd' hlo hhi => ?_
    · rw [hopened.entries 4 (by decide)]
      exact hfree₂ 4 (by decide)
    · obtain rfl | rfl : fd' = 2 ∨ fd' = 3 := by omega
      · rwa [hopened.entries 2 (by decide)]
      · rw [withFile_entry]
        exact Nat.one_ne_zero
  have ht : Touches sys (fun fd => fd = 2) p p₂ := (ht₁.mono fun _ => False.elim).trans ht₂
  have hown : p₂.kernel.pid = p₂.kernel.terminalProcessInfo p₂.kernel.currentTerminalId := by
    rw [ht.pid, ht.terminal, h.own]
  obtain ⟨hc0, hc1, hchars⟩ := h.chars
  obtain ⟨p₃, hfilm, ht₃⟩ := addFrames_eq (s := ⟨p₂, s, []⟩)
    (mounted_fsInit sys.mem sys.bootblk h.image) hchars hc0 hc1 h.frame0 h.frame1 hown ht.image hnext
    hnext' hfuel hfuel' v.frameStruct
  have hentry : entryAt p₃.kernel 2 = ⟨some .rtc, 0, 0, 1⟩ := by
    rw [ht₃.entries 2 (by decide)]
    exact hclock
  refine ⟨p₁, p₂, p₃, hvideo, hrtc, hfilm, by decide, ?_, ?_⟩ <;> rw [hentry]
  exact Nat.one_ne_zero

/-- The program shows the film of its two files: it returns 0 after 2600 ticks, and each of them
has left the screen that the picture says. -/
theorem fish_plays {v : Variables} {inode0 inode1 fuel : Nat} {file0 file1 : List UInt8}
    (h : Launched sys v inode0 inode1 file0 file1 p) (vmem : Nat → UInt8)
    (hfits : Fits (film (file0.splitOn 10) (file1.splitOn 10)))
    (hblank : pairAt (film (file0.splitOn 10) (file1.splitOn 10)) 540 = (32, 32))
    (hfuel : file0.length + 1 < fuel) (hfuel' : file1.length + 1 < fuel) :
    ∃ q, main sys fuel v vmem p = some (.ok (0, q)) ∧ q.shots =
      (List.range 2600).map fun i =>
        picture (film (file0.splitOn 10) (file1.splitOn 10)) vmem (i + 1) := by
  obtain ⟨p₁, p₂, p₃, hvideo, hrtc, hfilm, hclock⟩ := film_added h (start vmem) hfuel hfuel'
  have hbase := (screenStart_pos h.terminal).1
  generalize hrows : film (file0.splitOn 10) (file1.splitOn 10) = rows at *
  generalize hb : ({ v.frameStruct with onLength := 15, offLength := 15 } : BlinkStruct) = b at *
  have hlengths : b.onLength = 15 ∧ b.offLength = 15 := by
    rw [← hb]
    exact ⟨rfl, rfl⟩
  have hstarts : Starts rows vmem (addCells (filmBlinks b 0 rows) (blank vmem)) :=
    fun location hcell => addCells_film hfits hlengths.1 hlengths.2 hcell
  have hfree : (addCells (filmBlinks b 0 rows) (blank vmem) 540).entry = none := by
    have hcell : (540 : UInt16).toNat < cells := by decide
    have hpair : ¬ pairAt rows (540 : UInt16).toNat ≠ (32, 32) := not_not.mpr hblank
    rw [hstarts 540 hcell, if_neg hpair]
    rfl
  obtain ⟨q, hplay, hshots⟩ := playLoop_eq sys v [] hclock h.notNull.1
    h.notNull.2 (mirrors_film hfits b vmem) hfree
  refine ⟨q, ?_, hshots.trans (allScreens_eq hstarts v hblank)⟩
  simp only [main, hvideo, if_neg (Nat.pos_iff_ne_zero.mp hbase), hrtc, hfilm, hplay, Option.map_some]

def filmBytes : List (Nat × UInt8) :=
  [(0x400000, 3), (0x400004, 2), (0x400008, 2),
    (0x400040, 114), (0x400041, 116), (0x400042, 99),
    (0x400080, 102), (0x400081, 114), (0x400082, 97), (0x400083, 109), (0x400084, 101),
    (0x400085, 48), (0x400086, 46), (0x400087, 116), (0x400088, 120), (0x400089, 116),
    (0x4000a0, 2),
    (0x4000c0, 102), (0x4000c1, 114), (0x4000c2, 97), (0x4000c3, 109), (0x4000c4, 101),
    (0x4000c5, 49), (0x4000c6, 46), (0x4000c7, 116), (0x4000c8, 120), (0x4000c9, 116),
    (0x4000e0, 2), (0x4000e4, 1),
    (0x401000, 3), (0x402000, 1), (0x402004, 1),
    (0x403000, 47), (0x403001, 10), (0x403002, 111), (0x404000, 92)]

def filmMem : Mem := fun a => (filmBytes.lookup a).getD 0

def filmSystem : System := ⟨filmMem, 0x400000, ascii "shell", 0x7ff000⟩

def filmProcess : Process := ⟨noteKernel, filmMem, Keyboard.beforeClear fun _ => 0, []⟩

def filmVariables : Variables :=
  ⟨0x8050000, 0x83ffff0, 0x83fffe0, 0x83fffd0, 0x83fffd1, zeroBlink, zeroBlink⟩

theorem filmFile {inode : Nat} (h : inode = 0 ∨ inode = 1) : RegularFile filmMem filmSystem.fs inode := by
  obtain rfl | rfl := h
  · refine ⟨by decide, by decide, fun i hi => ?_⟩
    rw [show dataLength filmMem filmSystem.fs 0 / blockSize = 0 by decide, Nat.le_zero] at hi
    subst hi
    decide
  · refine ⟨by decide, by decide, fun i hi => ?_⟩
    rw [show dataLength filmMem filmSystem.fs 1 / blockSize = 0 by decide, Nat.le_zero] at hi
    subst hi
    decide

theorem filmLaunched : Launched filmSystem filmVariables 0 1 [47, 10, 111] [92] filmProcess where
  image := by decide
  own := by decide
  terminal := by decide
  free fd hlo hhi := by
    have hentry : entryAt noteKernel fd = if fd ≤ 1 then ⟨some .terminal, 0, 0, 1⟩ else ⟨none, 0, 0, 0⟩ := rfl
    change (entryAt noteKernel fd).flags = 0
    rw [hentry, if_neg (by omega)]
  rtc := ⟨⟨0, 0⟩, by decide, rfl⟩
  frame0 := ⟨⟨⟨2, 0⟩, by decide, rfl, rfl⟩, filmFile (Or.inl rfl), by decide +kernel⟩
  frame1 := ⟨⟨⟨2, 1⟩, by decide, rfl, rfl⟩, filmFile (Or.inr rfl), by decide +kernel⟩
  base := by decide
  stored := ⟨by decide, by decide, Or.inr (by decide)⟩
  chars := ⟨⟨by decide, by decide, Or.inr (by decide)⟩, ⟨by decide, by decide, Or.inr (by decide)⟩,
    by decide⟩
  notNull := by decide

theorem fish_plays_bubble :
    ∃ q, main filmSystem 6 filmVariables (fun _ => 32) filmProcess = some (.ok (0, q)) ∧ q.shots =
      (List.range 2600).map fun i =>
        picture (film (([47, 10, 111] : List UInt8).splitOn 10) (([92] : List UInt8).splitOn 10))
          (fun _ => 32) (i + 1) :=
  fish_plays filmLaunched (fun _ => 32) ⟨by decide, by decide⟩ (by decide) (by decide) (by decide)

end RedstoneOS.Fish
