import RedstoneOS.BlinkCells
import RedstoneOS.UserProgram

namespace RedstoneOS.FishFrames

open KernelState Lib Library.ByteMemory Filesystem ReadData Execute Syscalls ExecuteChecks
open SequentialReads UserProgram Blink BlinkEntries BlinkCells

/-- The program `fish` between two calls: its process, its list with the screen, and the screens
that the ticks of the clock have left. -/
structure Fish where
  process : Process
  blink : State
  shots : List (Nat → UInt8)

structure Source where
  fd : Int
  char : Nat

def nextChar (sys : System) (f : Source) (eof : Bool) (p : Process) : Option (Bool × Process) :=
  if p.mem f.char ≠ 10 then do
    let (numBytes, p) ← ece391Read sys f.fd f.char 1 p
    if numBytes = 0 then some (true, storeByte f.char 10 p) else some (eof, p)
  else some (eof, p)

def blinkAt (blinkStruct : BlinkStruct) (row col : Nat) (pair : UInt8 × UInt8) : BlinkStruct :=
  { blinkStruct with
    onChar := pair.1
    offChar := pair.2
    location := UInt16.ofNat (row * 80 + col + 40) }

def drawPair (blinkStruct : BlinkStruct) (row col : Nat) (c0 c1 : UInt8) (s : State) : State :=
  if (c0 ≠ 32 ∧ c0 ≠ 10) ∨ (c1 ≠ 32 ∧ c1 ≠ 10) then
    (mp1IoctlAdd (blinkAt blinkStruct row col
      (if c0 = 10 then 32 else c0, if c1 = 10 then 32 else c1)) s).2
  else s

def rowLoop (sys : System) (f0 f1 : Source) (blinkStruct : BlinkStruct) (row : Nat) :
    Nat → Nat → Bool → Bool → Fish → Option (Bool × Bool × Fish)
  | 0, _, _, _, _ => none
  | fuel + 1, col, eof0, eof1, s => do
    let (eof0, p) ← nextChar sys f0 eof0 s.process
    let (eof1, p) ← nextChar sys f1 eof1 p
    if p.mem f0.char = 10 ∧ p.mem f1.char = 10 then some (eof0, eof1, { s with process := p })
    else
      let blink := drawPair blinkStruct row col (p.mem f0.char) (p.mem f1.char) s.blink
      rowLoop sys f0 f1 blinkStruct row fuel (col + 1) eof0 eof1 { s with process := p, blink := blink }

/-- A file behind a row. It is closed again behind every row after its last one. -/
def endRow (f : Source) (eof : Bool) (p : Process) : Process :=
  if eof then (ece391Close f.fd (storeByte f.char 10 p)).2 else storeByte f.char 48 p

/-- The outer loop, with a bound `cols` for the inner one. -/
def frameLoop (sys : System) (f0 f1 : Source) (blinkStruct : BlinkStruct) (cols : Nat) :
    Nat → Nat → Bool → Bool → Fish → Option Fish
  | 0, _, _, _, _ => none
  | fuel + 1, row, eof0, eof1, s =>
    if eof0 = false ∨ eof1 = false then do
      let (eof0, eof1, s) ← rowLoop sys f0 f1 blinkStruct row cols 0 eof0 eof1 s
      frameLoop sys f0 f1 blinkStruct cols fuel (row + 1) eof0 eof1
        { s with process := endRow f1 eof1 (endRow f0 eof0 s.process) }
    else some s

/-- `add_frames`, with the addresses of `c0` and `c1`. An error is the argument of `halt`. -/
def addFrames (sys : System) (fuel c0 c1 : Nat) (f0 f1 : List UInt8) (blinkStruct : BlinkStruct)
    (s : Fish) : Option (Except Int Fish) :=
  let blinkStruct := { blinkStruct with onLength := 15, offLength := 15 }
  let p := storeByte c1 48 (storeByte c0 48 s.process)
  let (fd0, p) := ece391Open sys f0 p
  if fd0 < 0 then some (.error (-1))
  else
    let (fd1, p) := ece391Open sys f1 p
    if fd1 < 0 then some (.error (-1))
    else (frameLoop sys ⟨fd0, c0⟩ ⟨fd1, c1⟩ blinkStruct fuel fuel 0 false false
      { s with process := p }).map .ok

def padded (t u : List UInt8) : List (UInt8 × UInt8) :=
  List.zipWithAll (fun a b => (a.getD 32, b.getD 32)) t u

/-- Two files side by side. -/
def film (l l' : List (List UInt8)) : List (List (UInt8 × UInt8)) :=
  List.zipWithAll (fun t u => padded (t.getD []) (u.getD [])) l l'

/-- The entries of a row, from a column on. A pair of blanks gets none. -/
def rowBlinks (blinkStruct : BlinkStruct) (row : Nat) : Nat → List (UInt8 × UInt8) → List BlinkStruct
  | _, [] => []
  | col, pair :: l =>
    if pair = (32, 32) then rowBlinks blinkStruct row (col + 1) l
    else blinkAt blinkStruct row col pair :: rowBlinks blinkStruct row (col + 1) l

def filmBlinks (blinkStruct : BlinkStruct) : Nat → List (List (UInt8 × UInt8)) → List BlinkStruct
  | _, [] => []
  | row, r :: rows => rowBlinks blinkStruct row 0 r ++ filmBlinks blinkStruct (row + 1) rows

def addAll (us : List BlinkStruct) (s : State) : State :=
  us.foldl (fun s u => (mp1IoctlAdd u s).2) s

theorem padded_cons {t u : List UInt8} (h : t ≠ [] ∨ u ≠ []) :
    padded t u = (t.headD 32, u.headD 32) :: padded t.tail u.tail := by
  cases t with
  | nil =>
    cases u with
    | nil => simp at h
    | cons b u => simp [padded]
  | cons a t =>
    cases u with
    | nil => simp [padded]
    | cons b u => simp [padded]

theorem film_cons {l l' : List (List UInt8)} (h : l ≠ [] ∨ l' ≠ []) :
    film l l' = padded (l.headD []) (l'.headD []) :: film l.tail l'.tail := by
  cases l with
  | nil =>
    cases l' with
    | nil => simp at h
    | cons u l' => simp [film]
  | cons t l =>
    cases l' with
    | nil => simp [film]
    | cons u l' => simp [film]

structure OnFile (sys : System) (m₀ : Mem) (inode : Nat) (fd : Int) (pos : Nat) (p : Process) :
    Prop where
  valid : 2 ≤ fd ∧ fd ≤ maxFdNum
  entry : entryAt p.kernel fd = ⟨some .file, inode, pos, 1⟩
  own : p.kernel.pid = p.kernel.terminalProcessInfo p.kernel.currentTerminalId
  image : SameImage sys.fs p.mem m₀
  file : RegularFile m₀ sys.fs inode
  inside : pos ≤ (fileBytes m₀ sys.fs inode).length

/-- From one process to the next only these descriptors and these bytes have changed. -/
structure Touches (sys : System) (fds : Int → Prop) (p p' : Process) : Prop where
  pid : p'.kernel.pid = p.kernel.pid
  terminal : p'.kernel.terminalProcessInfo p'.kernel.currentTerminalId =
    p.kernel.terminalProcessInfo p.kernel.currentTerminalId
  entries : ∀ fd, ¬ fds fd → entryAt p'.kernel fd = entryAt p.kernel fd
  image : SameImage sys.fs p'.mem p.mem

variable {sys : System} {m₀ : Mem} {inode pos : Nat} {fd : Int} {p p' p'' : Process}
  {fds : Int → Prop}

theorem Touches.refl (p : Process) : Touches sys fds p p := ⟨rfl, rfl, fun _ _ => rfl, fun _ _ _ => rfl⟩

theorem Touches.trans (h : Touches sys fds p p') (h' : Touches sys fds p' p'') :
    Touches sys fds p p'' :=
  ⟨h'.pid.trans h.pid, h'.terminal.trans h.terminal,
    fun fd hfd => (h'.entries fd hfd).trans (h.entries fd hfd), agreeOn_trans h'.image h.image⟩

theorem Touches.mono {fds' : Int → Prop} (h : Touches sys fds p p') (hle : ∀ fd, fds fd → fds' fd) :
    Touches sys fds' p p' :=
  ⟨h.pid, h.terminal, fun fd hfd => h.entries fd fun h' => hfd (hle fd h'), h.image⟩

theorem touches_setEntry {f : FileEntry → FileEntry} (hk : p'.kernel = setEntry fd f p.kernel)
    (hm : SameImage sys.fs p'.mem p.mem) : Touches sys (fun fd' => fd' = fd) p p' := by
  refine ⟨?_, ?_, fun fd' hfd' => ?_, hm⟩
  · rw [hk]
    rfl
  · rw [hk]
    rfl
  · rw [hk, entryAt_setEntry, if_neg hfd']

theorem OnFile.frame (h : OnFile sys m₀ inode fd pos p) (ht : Touches sys fds p p') (hfd : ¬ fds fd) :
    OnFile sys m₀ inode fd pos p' where
  valid := h.valid
  entry := (ht.entries fd hfd).trans h.entry
  own := by rw [ht.pid, ht.terminal, h.own]
  image := agreeOn_trans ht.image h.image
  file := h.file
  inside := h.inside

theorem OnFile.fileAt (h : OnFile sys m₀ inode fd pos p) :
    FileAt sys (setEntry fd (fun _ => ⟨some .file, inode, 0, 1⟩) p.kernel) m₀ fd pos p := by
  have hentry : entryAt (setEntry fd (fun _ => ⟨some .file, inode, 0, 1⟩) p.kernel) fd =
      ⟨some .file, inode, 0, 1⟩ := by rw [entryAt_setEntry, if_pos rfl]
  refine ⟨⟨h.valid, ?_, ?_, ?_, ?_⟩, h.own, ?_, h.image, ?_⟩
  · rw [hentry]
    exact Nat.one_ne_zero
  · rw [hentry]
  · rw [hentry]
  · rw [hentry]
    exact h.file
  · rw [setEntry_setEntry, setEntry_self]
    exact h.entry.symm
  · rw [fileOf, hentry]
    exact h.inside

theorem read_onFile (hm : Mounted sys.fs) (h : OnFile sys m₀ inode fd pos p) {buf : Nat}
    (hbuf : UserBuffer sys.fs buf 1) {chunk : List UInt8}
    (hchunk : chunk = ((fileBytes m₀ sys.fs inode).drop pos).take 1) :
    ∃ p', ece391Read sys fd buf 1 p = some ((chunk.length : Int), p') ∧
      OnFile sys m₀ inode fd (pos + chunk.length) p' ∧ p'.mem = place p.mem buf chunk ∧
      Touches sys (fun fd' => fd' = fd) p p' := by
  have hat := h.fileAt
  have hof : fileOf sys (setEntry fd (fun _ => ⟨some .file, inode, 0, 1⟩) p.kernel) m₀ fd =
      fileBytes m₀ sys.fs inode := by rw [fileOf, entryAt_setEntry, if_pos rfl]
  have hgood : GoodBuffer sys.fs ⟨fd, buf, (1 : Nat)⟩ :=
    hbuf.good (show 0 + 1 ≤ 1 by omega) (by omega) fd
  have hdelivered : chunk =
      ((fileOf sys (setEntry fd (fun _ => ⟨some .file, inode, 0, 1⟩) p.kernel) m₀ fd).drop pos).take 1 := by
    rw [hof, hchunk]
  obtain ⟨p', hread, hat', hmem, -, -⟩ := read_file hm hat hgood hdelivered
  have hkernel : p'.kernel = setEntry fd
      (fun _ => ⟨some .file, inode, pos + chunk.length, 1⟩) p.kernel := by
    rw [hat'.kernel, setEntry_setEntry]
  have hshort : chunk.length ≤ 1 := by
    rw [hchunk]
    exact List.length_take_le _ _
  have himage : SameImage sys.fs p'.mem p.mem := by
    rw [hmem]
    exact hbuf.sameImage (changedIn_place _ le_rfl (by omega))
  have ht := touches_setEntry hkernel himage
  refine ⟨p', hread, ⟨h.valid, ?_, ?_, agreeOn_trans himage h.image, h.file, ?_⟩, hmem, ht⟩
  · rw [hkernel, entryAt_setEntry, if_pos rfl]
  · rw [ht.pid, ht.terminal, h.own]
  · have hinside := hat'.inside
    rwa [hof] at hinside

/-- A file between two characters: the last one, whether the file has ended, and what is left. -/
structure Cursor where
  char : UInt8
  eof : Bool
  rest : List UInt8

def Cursor.next (c : Cursor) : Cursor :=
  if c.char = 10 then c
  else match c.rest with
    | [] => ⟨10, true, []⟩
    | a :: l => ⟨a, c.eof, l⟩

/-- The process at a cursor. A file that has ended is not read again. -/
structure At (sys : System) (m₀ : Mem) (inode : Nat) (f : Source) (c : Cursor) (p : Process) :
    Prop where
  char : p.mem f.char = c.char
  stopped : c.eof = true → c.char = 10
  reading : c.eof = false → ∃ pos, OnFile sys m₀ inode f.fd pos p ∧
    c.rest = (fileBytes m₀ sys.fs inode).drop pos

variable {f f' : Source} {c c' : Cursor}

theorem At.frame (h : At sys m₀ inode f c p) (ht : Touches sys fds p p') (hfd : ¬ fds f.fd)
    (hchar : p'.mem f.char = p.mem f.char) : At sys m₀ inode f c p' := by
  refine ⟨hchar.trans h.char, h.stopped, fun heof => ?_⟩
  obtain ⟨pos, hon, hrest⟩ := h.reading heof
  exact ⟨pos, hon.frame ht hfd, hrest⟩

theorem touches_storeByte {a : Nat} (hbuf : UserBuffer sys.fs a 1) (ch : UInt8) (p : Process) :
    Touches sys fds p (storeByte a ch p) :=
  ⟨rfl, rfl, fun _ _ => rfl, hbuf.sameImage (changedIn_update p.mem ch le_rfl (by omega))⟩

theorem storeByte_other {a x : Nat} (hx : x ≠ a) (ch : UInt8) (p : Process) :
    (storeByte a ch p).mem x = p.mem x := Function.update_of_ne hx _ _

theorem storeByte_self (a : Nat) (ch : UInt8) (p : Process) : (storeByte a ch p).mem a = ch :=
  Function.update_self _ _ _

theorem nextChar_eq (hm : Mounted sys.fs) (hbuf : UserBuffer sys.fs f.char 1)
    (h : At sys m₀ inode f c p) : ∃ p', nextChar sys f c.eof p = some (c.next.eof, p') ∧
      At sys m₀ inode f c.next p' ∧ Touches sys (fun fd => fd = f.fd) p p' ∧
      ∀ x, x ≠ f.char → p'.mem x = p.mem x := by
  rw [nextChar, h.char, Cursor.next]
  by_cases hchar : c.char = 10
  · rw [if_pos hchar, if_neg (not_not.mpr hchar)]
    exact ⟨p, rfl, h, Touches.refl p, fun _ _ => rfl⟩
  · have heof : c.eof = false := by
      by_contra hne
      exact hchar (h.stopped (by simpa using hne))
    obtain ⟨pos, hon, hrest⟩ := h.reading heof
    obtain ⟨p', hread, hon', hmem, ht⟩ := read_onFile hm hon hbuf (congrArg (List.take 1) hrest)
    simp only [if_pos hchar, if_neg hchar, ne_eq, hread, Option.bind_eq_bind, Option.bind_some]
    cases hr : c.rest with
    | nil =>
      rw [hr] at hmem
      refine ⟨storeByte f.char 10 p', rfl, ⟨storeByte_self _ _ _, fun _ => rfl, nofun⟩,
        ht.trans (touches_storeByte hbuf 10 p'), fun x hx => ?_⟩
      rw [storeByte_other hx, hmem, List.take_nil, place_nil]
    | cons a l =>
      rw [hr] at hmem hon' hrest
      have hupdate : p'.mem = Function.update p.mem f.char a := by
        rw [hmem, List.take_succ_cons, List.take_zero, place_cons, place_nil]
      refine ⟨p', rfl, ⟨?_, fun he => absurd he (by simp [heof]), fun _ => ⟨_, hon', ?_⟩⟩, ht,
        fun x hx => ?_⟩
      · rw [hupdate, Function.update_self]
      · have htail := congrArg List.tail hrest
        rw [List.tail_cons, List.tail_drop] at htail
        exact htail
      · rw [hupdate, Function.update_of_ne hx]

def InRow (c : Cursor) (t : List UInt8) (l : List (List UInt8)) : Prop :=
  if c.char = 10 then t = [] ∧ (if c.eof then l = [] else c.rest.splitOn 10 = l)
  else c.eof = false ∧ c.rest.splitOn 10 = t :: l

def BeforeRow (c : Cursor) (l : List (List UInt8)) : Prop :=
  if c.eof then c.char = 10 ∧ l = [] else c.char ≠ 10 ∧ c.rest.splitOn 10 = l

variable {t : List UInt8} {l : List (List UInt8)}

theorem BeforeRow.inRow (h : BeforeRow c l) : InRow c (l.headD []) l.tail := by
  rw [BeforeRow] at h
  rw [InRow]
  by_cases heof : c.eof = true
  · rw [if_pos heof] at h ⊢
    obtain ⟨hchar, rfl⟩ := h
    rw [if_pos hchar]
    exact ⟨rfl, rfl⟩
  · rw [if_neg heof] at h
    obtain ⟨hchar, rfl⟩ := h
    rw [if_neg hchar]
    refine ⟨by simpa using heof, ?_⟩
    cases hs : c.rest.splitOn 10 with
    | nil => exact absurd hs (List.splitOn_ne_nil _ _)
    | cons t l => rfl

theorem BeforeRow.eof_iff (h : BeforeRow c l) : c.eof = true ↔ l = [] := by
  rw [BeforeRow] at h
  by_cases heof : c.eof = true
  · rw [if_pos heof] at h
    exact iff_of_true heof h.2
  · rw [if_neg heof] at h
    exact iff_of_false heof (h.2 ▸ List.splitOn_ne_nil _ _)

theorem InRow.next (h : InRow c t l) : c.next.char = t.headD 10 ∧ InRow c.next t.tail l ∧
    (c.next.char = 10 ↔ t = []) := by
  rw [InRow] at h
  rw [Cursor.next]
  by_cases hchar : c.char = 10
  · rw [if_pos hchar] at h ⊢
    obtain ⟨rfl, hrest⟩ := h
    refine ⟨hchar, ?_, iff_of_true hchar rfl⟩
    rw [InRow, if_pos hchar]
    exact ⟨rfl, hrest⟩
  · rw [if_neg hchar] at h ⊢
    obtain ⟨heof, hsplit⟩ := h
    cases hr : c.rest with
    | nil =>
      rw [hr, List.splitOn_nil] at hsplit
      obtain ⟨rfl, rfl⟩ := List.cons.inj hsplit
      exact ⟨rfl, by simp [InRow], iff_of_true rfl rfl⟩
    | cons a r =>
      rw [hr, List.splitOn_cons_eq_if_modifyHead] at hsplit
      by_cases ha : a = 10
      · rw [if_pos (by simpa using ha)] at hsplit
        obtain ⟨rfl, rfl⟩ := List.cons.inj hsplit
        exact ⟨ha, by simp [InRow, ha, heof], iff_of_true ha rfl⟩
      · rw [if_neg (by simpa using ha)] at hsplit
        cases hs : r.splitOn 10 with
        | nil => exact absurd hs (List.splitOn_ne_nil _ _)
        | cons t' l' =>
          rw [hs, List.modifyHead_cons] at hsplit
          obtain ⟨rfl, rfl⟩ := List.cons.inj hsplit
          exact ⟨rfl, by simp [InRow, ha, heof, hs], iff_of_false ha (List.cons_ne_nil a t')⟩

theorem addAll_append (us vs : List BlinkStruct) (s : State) :
    addAll (us ++ vs) s = addAll vs (addAll us s) := List.foldl_append

theorem drawPair_eq (blinkStruct : BlinkStruct) (row col : Nat) (c0 c1 : UInt8) (s : State) :
    drawPair blinkStruct row col c0 c1 s = addAll (rowBlinks blinkStruct row col
      [(if c0 = 10 then 32 else c0, if c1 = 10 then 32 else c1)]) s := by
  have hblank (ch : UInt8) : (if ch = 10 then 32 else ch) = 32 ↔ ¬ (ch ≠ 32 ∧ ch ≠ 10) := by
    split <;> simp_all
  have hpair : ((if c0 = 10 then 32 else c0, if c1 = 10 then 32 else c1) : UInt8 × UInt8) =
      (32, 32) ↔ ¬ ((c0 ≠ 32 ∧ c0 ≠ 10) ∨ (c1 ≠ 32 ∧ c1 ≠ 10)) := by
    rw [Prod.mk.injEq, hblank, hblank, not_or]
  rw [drawPair, rowBlinks]
  by_cases hdraw : (c0 ≠ 32 ∧ c0 ≠ 10) ∨ (c1 ≠ 32 ∧ c1 ≠ 10)
  · rw [if_pos hdraw, if_neg fun h => hpair.mp h hdraw]
    rfl
  · rw [if_neg hdraw, if_pos (hpair.mpr hdraw)]
    rfl

theorem head_char {ch : UInt8} (hchar : ch = t.headD 10) (hend : ch = 10 ↔ t = []) :
    t.headD 32 = if ch = 10 then 32 else ch := by
  cases t with
  | nil => rw [if_pos (hend.mpr rfl), List.headD_nil]
  | cons a t =>
    rw [if_neg fun h => List.cons_ne_nil a t (hend.mp h), hchar]
    rfl

theorem rowBlinks_cons (blinkStruct : BlinkStruct) (row col : Nat) (pair : UInt8 × UInt8)
    (r : List (UInt8 × UInt8)) : rowBlinks blinkStruct row col (pair :: r) =
      rowBlinks blinkStruct row col [pair] ++ rowBlinks blinkStruct row (col + 1) r := by
  simp only [rowBlinks]
  split <;> rfl

variable {inode' fuel : Nat} {u : List UInt8} {l' : List (List UInt8)} {s : Fish}

structure Sources (sys : System) (f f' : Source) : Prop where
  fd : f.fd ≠ f'.fd
  char : f.char ≠ f'.char
  buffer : UserBuffer sys.fs f.char 1
  buffer' : UserBuffer sys.fs f'.char 1

def Both (f f' : Source) (fd : Int) : Prop := fd = f.fd ∨ fd = f'.fd

theorem nextChars (hm : Mounted sys.fs) (hs : Sources sys f f') (h : At sys m₀ inode f c p)
    (h' : At sys m₀ inode' f' c' p) : ∃ p₁ p₂, nextChar sys f c.eof p = some (c.next.eof, p₁) ∧
      nextChar sys f' c'.eof p₁ = some (c'.next.eof, p₂) ∧ At sys m₀ inode f c.next p₂ ∧
      At sys m₀ inode' f' c'.next p₂ ∧ Touches sys (Both f f') p p₂ := by
  obtain ⟨p₁, hnext, hat, ht, hmem⟩ := nextChar_eq hm hs.buffer h
  obtain ⟨p₂, hnext', hat', ht', hmem'⟩ := nextChar_eq hm hs.buffer'
    (h'.frame ht hs.fd.symm (hmem _ hs.char.symm))
  refine ⟨p₁, p₂, hnext, hnext', hat.frame ht' hs.fd (hmem' _ hs.char), hat', ?_⟩
  exact (ht.mono fun _ => Or.inl).trans (ht'.mono fun _ => Or.inr)

/-- The inner loop draws a row. The induction is on the rounds, which are no more than the
characters of the longer line and one. -/
theorem rowLoop_eq (hm : Mounted sys.fs) (hs : Sources sys f f') (blinkStruct : BlinkStruct)
    (row col : Nat) (h : At sys m₀ inode f c s.process) (h' : At sys m₀ inode' f' c' s.process)
    (hrow : InRow c t l) (hrow' : InRow c' u l') (ht : t.length < fuel) (hu : u.length < fuel) :
    ∃ c₁ c₂ p, rowLoop sys f f' blinkStruct row fuel col c.eof c'.eof s =
        some (c₁.eof, c₂.eof, { s with
          process := p
          blink := addAll (rowBlinks blinkStruct row col (padded t u)) s.blink }) ∧
      At sys m₀ inode f c₁ p ∧ At sys m₀ inode' f' c₂ p ∧ c₁.char = 10 ∧ c₂.char = 10 ∧
      InRow c₁ [] l ∧ InRow c₂ [] l' ∧ Touches sys (Both f f') s.process p := by
  induction fuel generalizing c c' t u s col with
  | zero => omega
  | succ fuel ih =>
    obtain ⟨p₁, p₂, hnext, hnext', hat, hat', htouch⟩ := nextChars hm hs h h'
    obtain ⟨hchar, hin, hend⟩ := hrow.next
    obtain ⟨hchar', hin', hend'⟩ := hrow'.next
    simp only [rowLoop, hnext, hnext', Option.bind_eq_bind, Option.bind_some, hat.char, hat'.char,
      hend, hend']
    by_cases hdone : t = [] ∧ u = []
    · obtain ⟨rfl, rfl⟩ := hdone
      rw [if_pos ⟨rfl, rfl⟩]
      exact ⟨c.next, c'.next, p₂, rfl, hat, hat', hchar, hchar', hin, hin', htouch⟩
    · have hne : t ≠ [] ∨ u ≠ [] := by
        rw [← not_and_or]
        exact hdone
      have hcols : t.tail.length < fuel ∧ u.tail.length < fuel := by
        have hnz : 0 < t.length ∨ 0 < u.length := hne.imp List.length_pos_iff.mpr List.length_pos_iff.mpr
        rw [List.length_tail, List.length_tail]
        omega
      rw [if_neg hdone, padded_cons hne, head_char hchar hend, head_char hchar' hend', rowBlinks_cons,
        addAll_append, ← drawPair_eq]
      obtain ⟨c₁, c₂, p, hloop, hrest⟩ := ih (s := { s with
        process := p₂
        blink := drawPair blinkStruct row col c.next.char c'.next.char s.blink }) (col + 1) hat hat'
        hin hin' hcols.1 hcols.2
      obtain ⟨hat₁, hat₂, hc₁, hc₂, hrow₁, hrow₂, hrest⟩ := hrest
      exact ⟨c₁, c₂, p, hloop, hat₁, hat₂, hc₁, hc₂, hrow₁, hrow₂, htouch.trans hrest⟩

theorem touches_close (fd : Int) (p : Process) :
    Touches sys (fun fd' => fd' = fd) p (ece391Close fd p).2 := by
  rw [ece391Close]
  obtain ⟨hclose, -⟩ | ⟨hclose, -⟩ := closeCall_cases fd p.kernel
  · rw [hclose]
    exact Touches.refl p
  · rw [hclose]
    exact touches_setEntry rfl fun _ _ _ => rfl

theorem close_mem (fd : Int) (p : Process) : (ece391Close fd p).2.mem = p.mem := rfl

theorem endRow_eq (hbuf : UserBuffer sys.fs f.char 1) (h : At sys m₀ inode f c p)
    (hchar : c.char = 10) (hrow : InRow c [] l) : ∃ c', c'.eof = c.eof ∧
      At sys m₀ inode f c' (endRow f c.eof p) ∧ BeforeRow c' l ∧
      Touches sys (fun fd => fd = f.fd) p (endRow f c.eof p) ∧
      ∀ x, x ≠ f.char → (endRow f c.eof p).mem x = p.mem x := by
  rw [InRow, if_pos hchar] at hrow
  rw [endRow]
  by_cases heof : c.eof = true
  · rw [if_pos heof] at hrow ⊢
    refine ⟨⟨10, true, []⟩, heof.symm, ⟨?_, fun _ => rfl, nofun⟩, ⟨rfl, hrow.2⟩, ?_, fun x hx => ?_⟩
    · rw [close_mem, storeByte_self]
    · exact (touches_storeByte hbuf 10 p).trans (touches_close _ _)
    · rw [close_mem, storeByte_other hx]
  · rw [if_neg heof] at hrow ⊢
    have hopen : c.eof = false := by simpa using heof
    obtain ⟨pos, hon, hrest⟩ := h.reading hopen
    have ht : Touches sys (fun _ => False) p (storeByte f.char 48 p) := touches_storeByte hbuf 48 p
    refine ⟨⟨48, false, c.rest⟩, hopen.symm, ⟨storeByte_self _ _ _, nofun, fun _ => ⟨pos, ?_, hrest⟩⟩, ?_,
      ht.mono fun _ => False.elim, fun x hx => storeByte_other hx _ _⟩
    · exact hon.frame ht id
    · have hchar48 : (48 : UInt8) ≠ 10 := by decide
      rw [BeforeRow, if_neg Bool.false_ne_true]
      exact ⟨hchar48, hrow.2⟩

theorem endRows (hs : Sources sys f f') (h : At sys m₀ inode f c p) (h' : At sys m₀ inode' f' c' p)
    (hchar : c.char = 10) (hchar' : c'.char = 10) (hrow : InRow c [] l) (hrow' : InRow c' [] l') :
    ∃ c₁ c₂, c₁.eof = c.eof ∧ c₂.eof = c'.eof ∧ BeforeRow c₁ l ∧ BeforeRow c₂ l' ∧
      At sys m₀ inode f c₁ (endRow f' c'.eof (endRow f c.eof p)) ∧
      At sys m₀ inode' f' c₂ (endRow f' c'.eof (endRow f c.eof p)) ∧
      Touches sys (Both f f') p (endRow f' c'.eof (endRow f c.eof p)) := by
  obtain ⟨c₁, heof, hat, hbefore, ht, hmem⟩ := endRow_eq hs.buffer h hchar hrow
  obtain ⟨c₂, heof', hat', hbefore', ht', hmem'⟩ := endRow_eq hs.buffer'
    (h'.frame ht hs.fd.symm (hmem _ hs.char.symm)) hchar' hrow'
  refine ⟨c₁, c₂, heof, heof', hbefore, hbefore', hat.frame ht' hs.fd (hmem' _ hs.char), hat', ?_⟩
  exact (ht.mono fun _ => Or.inl).trans (ht'.mono fun _ => Or.inr)

theorem frameLoop_eq (hm : Mounted sys.fs) (hs : Sources sys f f') (blinkStruct : BlinkStruct)
    {cols : Nat} (row : Nat) (h : At sys m₀ inode f c s.process)
    (h' : At sys m₀ inode' f' c' s.process) (hbefore : BeforeRow c l) (hbefore' : BeforeRow c' l')
    (hcols : ∀ t ∈ l, t.length < cols) (hcols' : ∀ t ∈ l', t.length < cols) (hpos : 0 < cols)
    (hl : l.length < fuel) (hl' : l'.length < fuel) :
    ∃ p, frameLoop sys f f' blinkStruct cols fuel row c.eof c'.eof s =
        some { s with
          process := p
          blink := addAll (filmBlinks blinkStruct row (film l l')) s.blink } ∧
      Touches sys (Both f f') s.process p := by
  induction fuel generalizing c c' l l' s row with
  | zero => omega
  | succ fuel ih =>
    rw [frameLoop]
    by_cases hdone : l = [] ∧ l' = []
    · obtain ⟨rfl, rfl⟩ := hdone
      have heof := hbefore.eof_iff.mpr rfl
      have heof' := hbefore'.eof_iff.mpr rfl
      rw [if_neg (by simp [heof, heof'])]
      exact ⟨s.process, rfl, Touches.refl _⟩
    · have hne : l ≠ [] ∨ l' ≠ [] := by
        rw [← not_and_or]
        exact hdone
      have hmore : c.eof = false ∨ c'.eof = false := by
        rw [← Bool.not_eq_true, ← Bool.not_eq_true, hbefore.eof_iff, hbefore'.eof_iff]
        exact hne
      have hhead : ∀ {m : List (List UInt8)}, (∀ t ∈ m, t.length < cols) → (m.headD []).length < cols := by
        intro m hall
        cases m with
        | nil => exact hpos
        | cons t m => exact hall t List.mem_cons_self
      obtain ⟨c₁, c₂, p, hloop, hat₁, hat₂, hc₁, hc₂, hrow₁, hrow₂, ht⟩ := rowLoop_eq hm hs blinkStruct
        row 0 h h' hbefore.inRow hbefore'.inRow (hhead hcols) (hhead hcols')
      obtain ⟨c₃, c₄, heof, heof', hb₃, hb₄, hat₃, hat₄, ht'⟩ := endRows hs hat₁ hat₂ hc₁ hc₂ hrow₁ hrow₂
      have hfuel : l.tail.length < fuel ∧ l'.tail.length < fuel := by
        have hnz : 0 < l.length ∨ 0 < l'.length := hne.imp List.length_pos_iff.mpr List.length_pos_iff.mpr
        rw [List.length_tail, List.length_tail]
        omega
      obtain ⟨q, hrun, htq⟩ := ih (s := { s with
          process := endRow f' c₂.eof (endRow f c₁.eof p)
          blink := addAll (rowBlinks blinkStruct row 0 (padded (l.headD []) (l'.headD []))) s.blink })
        (row + 1) hat₃ hat₄ hb₃ hb₄ (fun t ht => hcols t (List.mem_of_mem_tail ht))
        (fun t ht => hcols' t (List.mem_of_mem_tail ht)) hfuel.1 hfuel.2
      rw [heof, heof', ← addAll_append] at hrun
      simp only [if_pos hmore, hloop, Option.bind_eq_bind, Option.bind_some, film_cons hne, filmBlinks]
      exact ⟨q, hrun, (ht.trans ht').trans htq⟩

theorem lines_length (t : List UInt8) : (t.splitOn 10).length ≤ t.length + 1 := by
  induction t with
  | nil => rfl
  | cons a t ih =>
    rw [List.splitOn_cons_eq_if_modifyHead]
    split
    · rw [List.length_cons, List.length_cons]
      omega
    · rw [List.length_modifyHead, List.length_cons]
      omega

theorem line_length (t : List UInt8) : ∀ line ∈ t.splitOn 10, line.length ≤ t.length := by
  induction t with
  | nil => simp [List.splitOn_nil]
  | cons a t ih =>
    rw [List.splitOn_cons_eq_if_modifyHead]
    split
    · rintro line hline
      obtain rfl | hline := List.mem_cons.mp hline
      · exact Nat.zero_le _
      · exact (ih line hline).trans (Nat.le_succ _)
    · cases hs : t.splitOn 10 with
      | nil => simp
      | cons first rest =>
        rw [hs] at ih
        rintro line hline
        obtain rfl | hline := List.mem_cons.mp hline
        · exact Nat.succ_le_succ (ih first List.mem_cons_self)
        · exact (ih line (List.mem_cons_of_mem first hline)).trans (Nat.le_succ _)

structure Stored (sys : System) (m : Mem) (name : List UInt8) (inode : Nat) (file : List UInt8) :
    Prop where
  entry : ∃ dentry, readDentryByName sys.mem sys.fs (byteAt name) = some dentry ∧
    dentry.fileType = 2 ∧ dentry.inodeNum = inode
  regular : RegularFile m sys.fs inode
  bytes : fileBytes m sys.fs inode = file

theorem freeDescriptor_unused {k : Kernel} (h : freeDescriptor k = some fd) :
    (entryAt k fd).flags = 0 := of_decide_eq_true (List.find?_some (p := fun fd =>
      decide ((entryAt k fd).flags = 0)) h)

def withFile (fd : Int) (inode : Nat) (p : Process) : Process :=
  { p with kernel := setEntry fd (fun _ => ⟨some .file, inode, 0, 1⟩) p.kernel }

theorem open_stored {name file : List UInt8} (h : Stored sys m₀ name inode file)
    (hfree : freeDescriptor p.kernel = some fd) : ece391Open sys name p = (fd, withFile fd inode p) := by
  obtain ⟨dentry, hname, htype, rfl⟩ := h.entry
  exact open_entry hfree hname (openAs_file htype)

theorem withFile_entry (fd : Int) (inode : Nat) (p : Process) :
    entryAt (withFile fd inode p).kernel fd = ⟨some .file, inode, 0, 1⟩ := by
  rw [withFile, entryAt_setEntry, if_pos rfl]

theorem touches_withFile (fd : Int) (inode : Nat) (p : Process) :
    Touches sys (fun fd' => fd' = fd) p (withFile fd inode p) := touches_setEntry rfl fun _ _ _ => rfl

theorem opened_at {name file : List UInt8} (h : Stored sys m₀ name inode file)
    (hvalid : 2 ≤ f.fd ∧ f.fd ≤ maxFdNum) (hentry : entryAt p.kernel f.fd = ⟨some .file, inode, 0, 1⟩)
    (hown : p.kernel.pid = p.kernel.terminalProcessInfo p.kernel.currentTerminalId)
    (himage : SameImage sys.fs p.mem m₀) (hchar : p.mem f.char = 48) :
    At sys m₀ inode f ⟨48, false, file⟩ p where
  char := hchar
  stopped := nofun
  reading _ := ⟨0, ⟨hvalid, hentry, hown, himage, h.regular, Nat.zero_le _⟩, h.bytes.symm⟩

theorem beforeRow_start (file : List UInt8) : BeforeRow ⟨48, false, file⟩ (file.splitOn 10) := by
  have hchar48 : (48 : UInt8) ≠ 10 := by decide
  rw [BeforeRow, if_neg Bool.false_ne_true]
  exact ⟨hchar48, rfl⟩

variable {name name' file file' : List UInt8}

theorem frames_opened (hm : Mounted sys.fs) (hs : Sources sys f f') (h : Stored sys m₀ name inode file)
    (h' : Stored sys m₀ name' inode' file') (hvalid : 2 ≤ f.fd ∧ f.fd ≤ maxFdNum)
    (hvalid' : 2 ≤ f'.fd ∧ f'.fd ≤ maxFdNum)
    (hown : p.kernel.pid = p.kernel.terminalProcessInfo p.kernel.currentTerminalId)
    (himage : SameImage sys.fs p.mem m₀) (hchar : p.mem f.char = 48) (hchar' : p.mem f'.char = 48)
    (hfuel : file.length + 1 < fuel) (hfuel' : file'.length + 1 < fuel) (blinkStruct : BlinkStruct) :
    ∃ q, frameLoop sys f f' blinkStruct fuel fuel 0 false false
        { s with process := withFile f'.fd inode' (withFile f.fd inode p) } = some { s with
          process := q
          blink := addAll (filmBlinks blinkStruct 0 (film (file.splitOn 10) (file'.splitOn 10))) s.blink } ∧
      Touches sys (Both f f') p q := by
  have ht : Touches sys (fun fd => fd = f.fd) p (withFile f.fd inode p) := touches_withFile _ _ _
  have ht' : Touches sys (fun fd => fd = f'.fd) (withFile f.fd inode p)
    (withFile f'.fd inode' (withFile f.fd inode p)) := touches_withFile _ _ _
  have hboth : Touches sys (Both f f') p (withFile f'.fd inode' (withFile f.fd inode p)) :=
    (ht.mono fun _ => Or.inl).trans (ht'.mono fun _ => Or.inr)
  have hentry : entryAt (withFile f'.fd inode' (withFile f.fd inode p)).kernel f.fd =
      ⟨some .file, inode, 0, 1⟩ := by rw [ht'.entries f.fd hs.fd, withFile_entry]
  have hat := opened_at (f := f) h hvalid hentry hown himage hchar
  have hat' := opened_at (f := f') (p := withFile f'.fd inode' (withFile f.fd inode p)) h' hvalid'
    (withFile_entry _ _ _) hown himage hchar'
  have hcols : ∀ t ∈ file.splitOn 10, t.length < fuel := by
    intro t ht
    have hle := line_length file t ht
    omega
  have hcols' : ∀ t ∈ file'.splitOn 10, t.length < fuel := by
    intro t ht
    have hle := line_length file' t ht
    omega
  obtain ⟨q, hrun, htq⟩ := frameLoop_eq hm hs blinkStruct 0
    (s := { s with process := withFile f'.fd inode' (withFile f.fd inode p) }) hat hat'
    (beforeRow_start file) (beforeRow_start file') hcols hcols' (by omega)
    ((lines_length file).trans_lt hfuel) ((lines_length file').trans_lt hfuel')
  exact ⟨q, hrun, hboth.trans htq⟩

theorem addFrames_eq (hm : Mounted sys.fs) {c0 c1 : Nat} (hchar : c0 ≠ c1)
    (hbuf : UserBuffer sys.fs c0 1) (hbuf' : UserBuffer sys.fs c1 1)
    (h : Stored sys m₀ name inode file) (h' : Stored sys m₀ name' inode' file')
    (hown : s.process.kernel.pid =
      s.process.kernel.terminalProcessInfo s.process.kernel.currentTerminalId)
    (himage : SameImage sys.fs s.process.mem m₀) {fd0 fd1 : Int}
    (hfree : freeDescriptor s.process.kernel = some fd0)
    (hfree' : freeDescriptor (withFile fd0 inode s.process).kernel = some fd1)
    (hfuel : file.length + 1 < fuel) (hfuel' : file'.length + 1 < fuel) (blinkStruct : BlinkStruct) :
    ∃ p, addFrames sys fuel c0 c1 name name' blinkStruct s = some (.ok { s with
        process := p
        blink := addAll (filmBlinks { blinkStruct with onLength := 15, offLength := 15 } 0
          (film (file.splitOn 10) (file'.splitOn 10))) s.blink }) ∧
      Touches sys (fun fd => fd = fd0 ∨ fd = fd1) s.process p := by
  have hvalid := freeDescriptor_range hfree
  have hvalid' := freeDescriptor_range hfree'
  have hne : fd0 ≠ fd1 := by
    rintro rfl
    have hunused := freeDescriptor_unused hfree'
    rw [withFile_entry] at hunused
    exact absurd hunused Nat.one_ne_zero
  have hstore : Touches sys (Both ⟨fd0, c0⟩ ⟨fd1, c1⟩) s.process
      (storeByte c1 48 (storeByte c0 48 s.process)) :=
    (touches_storeByte hbuf 48 s.process).trans (touches_storeByte hbuf' 48 _)
  have hchar0 : (storeByte c1 48 (storeByte c0 48 s.process)).mem c0 = 48 := by
    rw [storeByte_other hchar, storeByte_self]
  have hs : Sources sys ⟨fd0, c0⟩ ⟨fd1, c1⟩ := ⟨hne, hchar, hbuf, hbuf'⟩
  obtain ⟨q, hrun, ht⟩ := frames_opened (s := s) hm hs h h' hvalid hvalid'
    (p := storeByte c1 48 (storeByte c0 48 s.process))
    hown (agreeOn_trans hstore.image himage) hchar0 (storeByte_self c1 48 _) hfuel hfuel'
    { blinkStruct with onLength := 15, offLength := 15 }
  have hopen : ece391Open sys name (storeByte c1 48 (storeByte c0 48 s.process)) =
      (fd0, withFile fd0 inode (storeByte c1 48 (storeByte c0 48 s.process))) := open_stored h hfree
  have hopen' : ece391Open sys name' (withFile fd0 inode (storeByte c1 48 (storeByte c0 48 s.process))) =
      (fd1, withFile fd1 inode' (withFile fd0 inode (storeByte c1 48 (storeByte c0 48 s.process)))) :=
    open_stored h' hfree'
  have hrange : ¬ fd0 < 0 ∧ ¬ fd1 < 0 := by omega
  refine ⟨q, ?_, hstore.trans ht⟩
  simp only [addFrames, hopen, hopen', if_neg hrange.1, if_neg hrange.2]
  exact congrArg (Option.map Except.ok) hrun

end RedstoneOS.FishFrames
