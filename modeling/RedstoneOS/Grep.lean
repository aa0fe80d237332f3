import RedstoneOS.Library.LineReader
import RedstoneOS.UserProgram

namespace RedstoneOS.Grep

open KernelState Lib Library.ByteMemory Filesystem ReadData Execute Syscalls ExecuteChecks
open SequentialReads Itoa Ece391Support UserStrings UserProgram Library.LineReader

def bufsize : Nat := 1024

def findLineEnd (m : Mem) (data : Nat) : Nat → Nat → Nat
  | 0, lineEnd => lineEnd
  | n + 1, lineEnd =>
    if m (data + lineEnd) = 10 then lineEnd else findLineEnd m data n (lineEnd + 1)

def searchLine (m : Mem) (s sLen data : Nat) : Nat → Nat → Bool
  | 0, _ => false
  | n + 1, check =>
    if m s = m (data + check) ∧
        ece391Strncmp (fun j => m (data + check + j)) (fun j => m (s + j)) sLen = 0 then true
    else searchLine m s sLen data n (check + 1)

def report (fname line : Nat) (p : Process) : Option Process := do
  let p ← ece391Fdputs 1 fname p
  let p ← fdputsLiteral 1 (ascii ":") p
  let p ← ece391Fdputs 1 line p
  fdputsLiteral 1 (ascii "\n") p

def reportLine (s sLen fname data lineStart lineEnd : Nat) (p : Process) : Option Process :=
  if searchLine p.mem s sLen data (lineEnd - lineStart) lineStart
  then report fname (data + lineStart) p else some p

/-- The loop over the lines of the buffer. The result is what is left in the buffer for the
next read: nothing, or the beginning of a line that has been copied to the front. -/
def lineLoop (s sLen fname data : Nat) (cnt : Int) (last : Nat) :
    Nat → Nat → Process → Option (Nat × Process)
  | 0, _, _ => none
  | fuel + 1, lineStart, p =>
    let lineEnd := findLineEnd p.mem data (last - lineStart) lineStart
    let q := storeByte (data + lineEnd) 0 p
    if p.mem (data + lineEnd) ≠ 10 ∧ cnt ≠ 0 ∧ lineStart ≠ 0 then
      some (last - lineStart, { q with mem := ece391Strcpy data (data + lineStart) q.mem })
    else do
      let q ← reportLine s sLen fname data lineStart lineEnd q
      if last ≤ lineEnd + 1 then some (0, q)
      else lineLoop s sLen fname data cnt last fuel (lineEnd + 1) q

def closeFile (fd : Int) (p : Process) : Option (Int × Process) :=
  let (value, p) := ece391Close fd p
  if value = -1 then (fdputsLiteral 1 (ascii "file close failed\n") p).map fun p => (-1, p)
  else some (0, p)

/-- The loop over the reads. A round of `lineLoop` moves `lineStart` on, so that there are no
more of them than bytes in the buffer and one. -/
def readLoop (sys : System) (s sLen fname data : Nat) (fd : Int) :
    Nat → Nat → Process → Option (Int × Process)
  | 0, _, _ => none
  | fuel + 1, last, p => do
    let (cnt, p) ← ece391Read sys fd (data + last) ((bufsize - last : Nat) : Int) p
    if cnt = -1 then (fdputsLiteral 1 (ascii "file read failed\n") p).map fun p => (-1, p)
    else do
      let (last, p) ← lineLoop s sLen fname data cnt (last + cnt.toNat) (bufsize + 1) 0 p
      if cnt = 0 then closeFile fd p else readLoop sys s sLen fname data fd fuel last p

def doOneFile (sys : System) (fuel s fname data : Nat) (p : Process) : Option (Int × Process) :=
  let sLen := ece391Strlen p.mem s
  let (fd, p) := ece391Open sys (textAt p.mem fname) p
  if fd = -1 then (fdputsLiteral 1 (ascii "file open failed\n") p).map fun p => (-1, p)
  else readLoop sys s sLen fname data fd fuel 0 p

def lineOutput (pattern name line : List UInt8) : List UInt8 :=
  if pattern ≠ [] ∧ pattern <:+: line then name ++ ascii ":" ++ line ++ ascii "\n" else []

def output (pattern name : List UInt8) (lines : List (List UInt8)) : List UInt8 :=
  lines.flatMap (lineOutput pattern name)

variable {m : Mem} {data s sLen fname lineStart last n : Nat} {l pattern name : List UInt8}

@[simp] theorem lineOutput_nil (pattern name : List UInt8) : lineOutput pattern name [] = [] := by
  rw [lineOutput, if_neg]
  rintro ⟨hne, h⟩
  exact hne (List.infix_nil.mp h)

@[simp] theorem output_nil (pattern name : List UInt8) : output pattern name [] = [] := rfl

theorem output_cons (pattern name line : List UInt8) (lines : List (List UInt8)) :
    output pattern name (line :: lines) =
      lineOutput pattern name line ++ output pattern name lines := rfl

theorem output_filter (pattern name : List UInt8) (lines : List (List UInt8)) :
    output pattern name (lines.filter (fun l => l ≠ [])) = output pattern name lines := by
  induction lines with
  | nil => rfl
  | cons line lines ih =>
    by_cases hline : line = []
    · subst hline
      simp [output_cons, ← ih]
    · rw [List.filter_cons_of_pos (by simpa using hline), output_cons, output_cons, ih]

theorem findLineEnd_eq {k : Nat} (hk : ∀ j, j < k → m (data + (lineStart + j)) ≠ 10)
    (hle : k ≤ n) (hend : k = n ∨ m (data + (lineStart + k)) = 10) :
    findLineEnd m data n lineStart = lineStart + k := by
  induction n generalizing lineStart k with
  | zero =>
    obtain rfl : k = 0 := by omega
    rfl
  | succ n ih =>
    rw [findLineEnd]
    cases k with
    | zero =>
      have h10 : m (data + lineStart) = 10 := by
        simpa using hend
      rw [if_pos h10, Nat.add_zero]
    | succ k =>
      have hne : m (data + lineStart) ≠ 10 := hk 0 (Nat.succ_pos k)
      rw [if_neg hne, ih (k := k), Nat.add_assoc, Nat.add_comm 1]
      · intro j hj
        have h := hk (j + 1) (by omega)
        rwa [show lineStart + (j + 1) = lineStart + 1 + j by omega] at h
      · omega
      · refine hend.imp (by omega) fun h => ?_
        rwa [show lineStart + (k + 1) = lineStart + 1 + k by omega] at h

theorem searchLine_iff (check : Nat) : searchLine m s sLen data n check = true ↔
    ∃ i, i < n ∧ m s = m (data + (check + i)) ∧
      ece391Strncmp (fun j => m (data + (check + i) + j)) (fun j => m (s + j)) sLen = 0 := by
  induction n generalizing check with
  | zero => simp [searchLine]
  | succ n ih =>
    rw [searchLine]
    split
    next hfound => exact iff_of_true rfl ⟨0, Nat.succ_pos n, hfound⟩
    next hnot =>
      rw [ih]
      constructor
      · rintro ⟨i, hi, h⟩
        refine ⟨i + 1, by omega, ?_⟩
        rwa [show check + (i + 1) = check + 1 + i by omega]
      · rintro ⟨i, hi, h⟩
        cases i with
        | zero => exact absurd h hnot
        | succ i =>
          refine ⟨i, by omega, ?_⟩
          rwa [show check + 1 + i = check + (i + 1) by omega]

theorem searchLine_holds (hs : HoldsText (fun j => m (s + j)) pattern)
    (hl : HoldsText (fun j => m (data + (lineStart + j))) l) :
    searchLine m s pattern.length data l.length lineStart = true ↔
      pattern ≠ [] ∧ pattern <:+: l := by
  have hfound : ∀ i, ece391Strncmp (fun j => m (data + (lineStart + i) + j))
      (fun j => m (s + j)) pattern.length = 0 ↔
      ∀ j, j < pattern.length → m (data + (lineStart + (i + j))) = byteAt pattern j := by
    intro i
    rw [strncmp_eq_zero hs]
    simp only [Nat.add_assoc]
  have hfirst : m s = byteAt pattern 0 := hs.bytes 0 (Nat.zero_le _)
  simp only [searchLine_iff, hfound]
  constructor
  · rintro ⟨i, hi, h0, hall⟩
    have hne : pattern ≠ [] := by
      rintro rfl
      exact hl.ne_zero hi (h0.symm.trans hfirst)
    -- the NUL behind the line ends every comparison that the line does not fill
    have hfits : pattern.length + i ≤ l.length := by
      by_contra hlong
      have hend := hall (l.length - i) (by omega)
      rw [show i + (l.length - i) = l.length by omega, hl.nul] at hend
      exact byteAt_ne hs.chars (by omega) hend.symm
    refine ⟨hne, List.infix_iff_getElem?.mpr ⟨i, hfits, fun j hj => ?_⟩⟩
    have hj' := hall j hj
    rw [hl.bytes (i + j) (by omega), byteAt, byteAt, List.getD_eq_getElem _ _ (by omega),
      List.getD_eq_getElem _ _ hj] at hj'
    rw [List.getElem?_eq_getElem (by omega), ← hj']
    simp only [Nat.add_comm j i]
  · rintro ⟨hne, hinfix⟩
    obtain ⟨i, hfits, hall⟩ := List.infix_iff_getElem?.mp hinfix
    have hpos := List.length_pos_iff.mpr hne
    have hbytes : ∀ j, j < pattern.length →
        m (data + (lineStart + (i + j))) = byteAt pattern j := by
      intro j hj
      have hj' := hall j hj
      rw [List.getElem?_eq_getElem (by omega), Option.some.injEq] at hj'
      rw [hl.bytes (i + j) (by omega), byteAt, byteAt, List.getD_eq_getElem _ _ (by omega),
        List.getD_eq_getElem _ _ hj, ← hj']
      simp only [Nat.add_comm j i]
    exact ⟨i, by omega, hfirst.trans (hbytes 0 hpos).symm, hbytes⟩

/-- The two strings of `do_one_file` stand off its buffer, and the byte behind the bytes that it
reads, which it never sets, is no newline. -/
structure Layout (s fname data : Nat) (pattern name : List UInt8) (m : Mem) : Prop where
  holdsPattern : HoldsText (fun j => m (s + j)) pattern
  holdsName : HoldsText (fun j => m (fname + j)) name
  patternApart : s + pattern.length < data ∨ data + (bufsize + 1) ≤ s
  nameApart : fname + name.length < data ∨ data + (bufsize + 1) ≤ fname
  addresses : fname ≠ 0 ∧ data ≠ 0
  short : pattern.length ≤ addressSpace ∧ name.length ≤ addressSpace
  guard : m (data + bufsize) ≠ 10

theorem Layout.changed {m' : Mem} (h : Layout s fname data pattern name m)
    (hm : ChangedIn data (bufsize + 1) m m') (hguard : m' (data + bufsize) ≠ 10) :
    Layout s fname data pattern name m' := by
  have hp := h.patternApart
  have hn := h.nameApart
  refine ⟨h.holdsPattern.congr fun j hj => hm _ ?_, h.holdsName.congr fun j hj => hm _ ?_, hp, hn,
    h.addresses, h.short, hguard⟩
  · omega
  · omega

variable {p : Process}

theorem report_eq (hlay : Layout s fname data pattern name p.mem) (hout : Stdout p.kernel)
    (hl : HoldsText (fun j => p.mem (data + lineStart + j)) l) (hlen : l.length ≤ addressSpace) :
    report fname (data + lineStart) p =
      some (p.puts (name ++ ascii ":" ++ l ++ ascii "\n")) := by
  have hline : data + lineStart ≠ 0 := by
    have hd := hlay.addresses.2
    omega
  have hname : textAt p.mem fname = name := hlay.holdsName.textAt hlay.short.2
  have htext : textAt p.mem (data + lineStart) = l := hl.textAt hlen
  simp only [report, Option.bind_eq_bind, fdputs_stdout hout hlay.addresses.1, hname,
    Option.bind_some, fdputsLiteral_puts hout, fdputs_puts hout hline, htext]

theorem reportLine_eq (hlay : Layout s fname data pattern name p.mem) (hout : Stdout p.kernel)
    (hl : HoldsText (fun j => p.mem (data + lineStart + j)) l) (hlen : l.length ≤ addressSpace) :
    reportLine s pattern.length fname data lineStart (lineStart + l.length) p =
      some (p.puts (lineOutput pattern name l)) := by
  have hl' : HoldsText (fun j => p.mem (data + (lineStart + j))) l := by
    simpa only [Nat.add_assoc] using hl
  have hiff := searchLine_holds hlay.holdsPattern hl'
  rw [reportLine, Nat.add_sub_cancel_left]
  by_cases hfound : pattern ≠ [] ∧ pattern <:+: l
  · rw [if_pos (hiff.mpr hfound), report_eq hlay hout hl hlen, lineOutput, if_pos hfound]
  · rw [if_neg fun h => hfound (hiff.mp h), lineOutput, if_neg hfound, Process.puts_nil]

structure LinesDone (data : Nat) (p p' : Process) (held out : List UInt8) : Prop where
  kernel : p'.kernel = p.kernel
  typed : p'.typed = p.typed
  console : p'.console = emit out p.console
  changed : ChangedIn data (bufsize + 1) p.mem p'.mem
  guard : p'.mem (data + bufsize) ≠ 10
  bytes : ∀ j, j < held.length → p'.mem (data + j) = byteAt held j
  room : held.length < bufsize
  chars : 10 ∉ held ∧ 0 ∉ held

theorem holdsText_stored {b : Nat} (hl : ∀ j, j < l.length → p.mem (b + j) = byteAt l j)
    (h0 : 0 ∉ l) : HoldsText (fun j => (storeByte (b + l.length) 0 p).mem (b + j)) l := by
  refine ⟨h0, fun j hj => ?_⟩
  change Function.update p.mem (b + l.length) 0 (b + j) = byteAt l j
  obtain hlt | rfl := Nat.lt_or_eq_of_le hj
  · rw [Function.update_of_ne (by omega), hl j hlt]
  · rw [Function.update_self, byteAt_end]

theorem linesDone_puts {x : Nat} (hlo : data ≤ x) (hhi : x ≤ data + bufsize)
    (hguard : p.mem (data + bufsize) ≠ 10) (out : List UInt8) :
    LinesDone data p ((storeByte x 0 p).puts out) [] out where
  kernel := rfl
  typed := rfl
  console := rfl
  changed := changedIn_update p.mem 0 hlo (by omega)
  guard := by
    rw [Process.puts_mem]
    change Function.update p.mem x 0 (data + bufsize) ≠ 10
    by_cases hx : data + bufsize = x
    · rw [hx, Function.update_self]
      decide
    · rwa [Function.update_of_ne hx]
  bytes j hj := absurd hj (Nat.not_lt_zero j)
  room := by decide
  chars := ⟨List.not_mem_nil, List.not_mem_nil⟩

theorem LinesDone.trans {p₁ p₂ : Process} {held held' out out' : List UInt8}
    (h : LinesDone data p p₁ held out) (h' : LinesDone data p₁ p₂ held' out') :
    LinesDone data p p₂ held' (out ++ out') where
  kernel := h'.kernel.trans h.kernel
  typed := h'.typed.trans h.typed
  console := by rw [h'.console, h.console, emit_append]
  changed := h.changed.trans h'.changed
  guard := h'.guard
  bytes := h'.bytes
  room := h'.room
  chars := h'.chars

theorem pieces_last {r : List UInt8} (h10 : 10 ∉ r) (hr : r.length ≤ bufsize) :
    output pattern name (pieces 10 bufsize [] r) = lineOutput pattern name r := by
  by_cases hne : r = []
  · simp [hne]
  · have hpieces : pieces 10 bufsize [] (r ++ []) = [r] := by
      obtain hlt | heq := Nat.lt_or_eq_of_le hr
      · rw [pieces_hold h10 (by simpa using hlt), pieces_nil, List.nil_append, if_neg hne]
      · rw [pieces_full h10 hne (by simpa using heq), pieces_nil, List.nil_append, if_pos rfl]
    rw [List.append_nil] at hpieces
    rw [hpieces, output_cons, output_nil, List.append_nil]

/-- The loop over the lines of a buffer that ends with `r`, before the rest of the file. The
induction is on the rounds; the buffer is full unless the file ends in it. -/
theorem lineLoop_eq {fuel : Nat} {cnt : Int} {r future : List UInt8}
    (hlay : Layout s fname data pattern name p.mem) (hout : Stdout p.kernel)
    (hr : ∀ j, j < r.length → p.mem (data + lineStart + j) = byteAt r j)
    (hlast : last = lineStart + r.length) (hle : last ≤ bufsize) (h0 : 0 ∉ r)
    (hfuture : last < bufsize → future = []) (hcnt : cnt = 0 → last < bufsize)
    (hfuel : r.length < fuel) :
    ∃ held out p', lineLoop s pattern.length fname data cnt last fuel lineStart p =
        some (held.length, p') ∧ LinesDone data p p' held out ∧ (cnt = 0 → held = []) ∧
      output pattern name (pieces 10 bufsize [] (r ++ future)) =
        out ++ output pattern name (pieces 10 bufsize [] (held ++ future)) := by
  induction fuel generalizing p lineStart r with
  | zero => omega
  | succ fuel ih =>
    rw [lineLoop]
    by_cases h10 : 10 ∈ r
    · obtain ⟨a, b, rfl, ha⟩ := List.eq_append_cons_of_mem h10
      rw [List.length_append, List.length_cons] at hlast hfuel
      have ha0 : 0 ∉ a := fun h => h0 (List.mem_append_left _ h)
      have hb0 : 0 ∉ b := fun h => h0 (List.mem_append_right _ (List.mem_cons_of_mem _ h))
      have hline : ∀ j, j < a.length → p.mem (data + lineStart + j) = byteAt a j := by
        intro j hj
        rw [hr j (by simp; omega), byteAt_append_left _ hj]
      have hnewline : p.mem (data + (lineStart + a.length)) = 10 := by
        rw [← Nat.add_assoc, hr a.length (by simp)]
        exact byteAt_append_right a (10 :: b) 0
      have hend : findLineEnd p.mem data (last - lineStart) lineStart = lineStart + a.length := by
        refine findLineEnd_eq (fun j hj => ?_) (by omega) (Or.inr hnewline)
        rw [← Nat.add_assoc, hline j hj]
        exact fun h => ha (h ▸ byteAt_mem hj)
      have hdone := linesDone_puts (p := p) (x := data + (lineStart + a.length)) (by omega)
        (by omega) hlay.guard (lineOutput pattern name a)
      have hlay' : Layout s fname data pattern name
          (storeByte (data + (lineStart + a.length)) 0 p).mem :=
        hlay.changed hdone.changed hdone.guard
      have htext := reportLine_eq hlay' (p := storeByte (data + (lineStart + a.length)) 0 p) hout
        (by simpa only [Nat.add_assoc] using holdsText_stored hline ha0) (by
          simp only [addressSpace, bufsize] at hle ⊢
          omega)
      have hpieces : pieces 10 bufsize [] ((a ++ 10 :: b) ++ future) =
          a :: pieces 10 bufsize [] (b ++ future) := by
        rw [List.append_assoc, List.cons_append, pieces_line ha (by simp; omega), List.nil_append]
      simp only [hend, hnewline, ne_eq, not_true_eq_false, false_and, if_false,
        htext, Option.bind_eq_bind, Option.bind_some, hpieces, output_cons]
      by_cases hover : last ≤ lineStart + a.length + 1
      · obtain rfl : b = [] := List.length_eq_zero_iff.mp (by omega)
        rw [if_pos hover]
        exact ⟨[], _, _, rfl, hdone, fun _ => rfl, rfl⟩
      · have hrest : ∀ j, j < b.length →
            (storeByte (data + (lineStart + a.length)) 0 p).mem
              (data + (lineStart + a.length + 1) + j) = byteAt b j := by
          intro j hj
          change Function.update p.mem (data + (lineStart + a.length)) 0 _ = _
          rw [Function.update_of_ne (by omega),
            show data + (lineStart + a.length + 1) + j = data + lineStart + (a.length + (j + 1)) by
              omega, hr _ (by simp; omega), byteAt_append_right]
          simp [byteAt]
        rw [if_neg hover]
        obtain ⟨held, out, p', hloop, hlines, hnone, hout'⟩ := ih
          (p := (storeByte (data + (lineStart + a.length)) 0 p).puts (lineOutput pattern name a)) (r := b)
          hlay' hout hrest (by omega) hb0 (by omega)
        refine ⟨held, _, p', hloop, hdone.trans hlines, hnone, ?_⟩
        rw [hout', List.append_assoc]
    · have hbytes : ∀ j, j < r.length → p.mem (data + (lineStart + j)) ≠ 10 := by
        intro j hj
        rw [← Nat.add_assoc, hr j hj]
        exact fun h => h10 (h ▸ byteAt_mem hj)
      have hend : findLineEnd p.mem data (last - lineStart) lineStart = lineStart + r.length :=
        findLineEnd_eq hbytes (by omega) (Or.inl (by omega))
      have htext := holdsText_stored hr h0
      rw [Nat.add_assoc data] at htext
      have hdone := linesDone_puts (p := p) (x := data + (lineStart + r.length)) (by omega)
        (by omega) hlay.guard
      have hlay' : Layout s fname data pattern name
          (storeByte (data + (lineStart + r.length)) 0 p).mem :=
        hlay.changed (hdone []).changed (hdone []).guard
      simp only [hend]
      by_cases hmove : p.mem (data + (lineStart + r.length)) ≠ 10 ∧ cnt ≠ 0 ∧ lineStart ≠ 0
      · -- the beginning of a line goes to the front of the buffer
        have hcopy := strcpy_eq (by omega : data < data + lineStart) (by
          simp only [addressSpace, bufsize] at hle ⊢
          omega) htext
        rw [if_pos hmove, hcopy, hlast, Nat.add_sub_cancel_left]
        refine ⟨r, [], _, rfl, ⟨rfl, rfl, (emit_nil _).symm, ?_, ?_, ?_, by omega, h10, h0⟩, ?_, rfl⟩
        · exact (hdone []).changed.trans (changedIn_place _ le_rfl (by simp; omega))
        · dsimp only
          rw [place_outside _ _ (Or.inr (by simp; omega))]
          exact (hdone []).guard
        · intro j hj
          dsimp only
          rw [place_byteAt _ _ (by simp; omega), byteAt_append_left _ hj]
        · exact fun h => absurd h hmove.2.1
      · have hreport := reportLine_eq hlay'
          (p := storeByte (data + (lineStart + r.length)) 0 p) hout htext (by
            simp only [addressSpace, bufsize] at hle ⊢
            omega)
        rw [if_neg hmove]
        simp only [hreport, Option.bind_eq_bind, Option.bind_some,
          if_pos (show last ≤ lineStart + r.length + 1 by omega)]
        refine ⟨[], _, _, rfl, hdone _, fun _ => rfl, ?_⟩
        rw [List.nil_append]
        by_cases hfut : future = []
        · rw [hfut, List.append_nil, pieces_last h10 (by omega), pieces_nil, if_pos rfl, output_nil,
            List.append_nil]
        · -- the rest of the file is not in the buffer, which is full of one line
          have hfull : last = bufsize := by
            by_contra hne
            exact hfut (hfuture (by omega))
          have hguard : p.mem (data + (lineStart + r.length)) ≠ 10 := by
            rw [← hlast, hfull]
            exact hlay.guard
          have hstart : lineStart = 0 := by
            by_contra hne
            exact hmove ⟨hguard, fun h => absurd (hcnt h) (by omega), hne⟩
          have hlen : r.length = bufsize := by omega
          have hne : r ≠ [] := by
            rintro rfl
            exact absurd hlen (by decide)
          rw [pieces_full h10 hne (by simpa using hlen), List.nil_append, output_cons]

variable {sys : System} {k₀ : Kernel} {m₀ : Mem} {fd : Int} {pos : Nat} {held : List UInt8}

/-- `do_one_file` before a read: the beginning of a line is held in the buffer. -/
structure AtRead (sys : System) (k₀ : Kernel) (m₀ : Mem) (fd : Int) (s fname data : Nat)
    (pattern name held : List UInt8) (pos : Nat) (p : Process) : Prop where
  file : FileAt sys k₀ m₀ fd pos p
  layout : Layout s fname data pattern name p.mem
  bytes : ∀ j, j < held.length → p.mem (data + j) = byteAt held j
  room : held.length < bufsize
  chars : 10 ∉ held ∧ 0 ∉ held

def pending (pattern name held file : List UInt8) (pos : Nat) : List UInt8 :=
  output pattern name (pieces 10 bufsize [] (held ++ file.drop pos))

/-- One read with the loop over the lines that it completes. -/
theorem read_round (hm : Mounted sys.fs) (hbuf : UserBuffer sys.fs data (bufsize + 1))
    (hout : Stdout k₀) (h0 : 0 ∉ fileOf sys k₀ m₀ fd)
    (h : AtRead sys k₀ m₀ fd s fname data pattern name held pos p) {chunk : List UInt8}
    (hchunk : chunk = ((fileOf sys k₀ m₀ fd).drop pos).take (bufsize - held.length)) :
    ∃ q held' out p',
      ece391Read sys fd (data + held.length) ((bufsize - held.length : Nat) : Int) p =
        some ((chunk.length : Int), q) ∧
      lineLoop s pattern.length fname data chunk.length (held.length + chunk.length) (bufsize + 1)
        0 q = some (held'.length, p') ∧
      AtRead sys k₀ m₀ fd s fname data pattern name held' (pos + chunk.length) p' ∧
      p'.typed = p.typed ∧ p'.console = emit out p.console ∧
      ChangedIn data (bufsize + 1) p.mem p'.mem ∧ (chunk = [] → held' = []) ∧
      pending pattern name held (fileOf sys k₀ m₀ fd) pos =
        out ++ pending pattern name held' (fileOf sys k₀ m₀ fd) (pos + chunk.length) := by
  have hroom := h.room
  have hgood := hbuf.good (by omega : held.length + (bufsize - held.length) ≤ bufsize + 1)
    (by simp only [bufsize]; omega) fd
  obtain ⟨q, hread, hfile, hmem, hconsole, htyped⟩ := read_file hm h.file hgood hchunk
  have hlen : chunk.length = min (bufsize - held.length) ((fileOf sys k₀ m₀ fd).drop pos).length := by
    rw [hchunk, List.length_take]
  have hqchanged : ChangedIn data (bufsize + 1) p.mem q.mem := by
    rw [hmem]
    exact changedIn_place _ (by omega) (by omega)
  have hqguard : q.mem (data + bufsize) ≠ 10 := by
    rw [hmem, place_outside _ _ (by omega)]
    exact h.layout.guard
  have hbytes : ∀ j, j < (held ++ chunk).length → q.mem (data + 0 + j) = byteAt (held ++ chunk) j := by
    intro j hj
    rw [List.length_append] at hj
    rw [hmem, Nat.add_zero]
    by_cases hheld : j < held.length
    · rw [place_outside _ _ (Or.inl (by omega)), h.bytes j hheld, byteAt_append_left _ hheld]
    · obtain ⟨i, rfl⟩ := Nat.exists_eq_add_of_le (Nat.le_of_not_lt hheld)
      rw [← Nat.add_assoc, place_byteAt _ _ (by omega), byteAt_append_right]
  have hclean : 0 ∉ held ++ chunk := by
    rw [List.mem_append, not_or]
    refine ⟨h.chars.2, fun hmem0 => h0 ?_⟩
    rw [hchunk] at hmem0
    exact List.mem_of_mem_drop (List.mem_of_mem_take hmem0)
  have hrest : held ++ (fileOf sys k₀ m₀ fd).drop pos =
      (held ++ chunk) ++ (fileOf sys k₀ m₀ fd).drop (pos + chunk.length) := by
    have hsplit := List.take_append_drop chunk.length ((fileOf sys k₀ m₀ fd).drop pos)
    have htake : ((fileOf sys k₀ m₀ fd).drop pos).take chunk.length = chunk := by
      rw [hlen, hchunk, ← List.take_eq_take_min]
    rw [htake, List.drop_drop] at hsplit
    rw [List.append_assoc, hsplit]
  have hfuture : held.length + chunk.length < bufsize →
      (fileOf sys k₀ m₀ fd).drop (pos + chunk.length) = [] := by
    intro hlt
    rw [List.drop_eq_nil_iff]
    rw [List.length_drop] at hlen
    omega
  have hlast : held.length + chunk.length = 0 + (held ++ chunk).length := by simp
  have hcnt : (chunk.length : Int) = 0 → held.length + chunk.length < bufsize := by omega
  have hfuel : (held ++ chunk).length < bufsize + 1 := by
    rw [List.length_append]
    omega
  obtain ⟨held', out, p', hloop, hdone, hnone, hpieces⟩ := lineLoop_eq
    (h.layout.changed hqchanged hqguard) (hfile.stdout hout) hbytes hlast (by omega) hclean
    hfuture hcnt hfuel
  have hchanged := hqchanged.trans hdone.changed
  refine ⟨q, held', out, p', hread, hloop, ⟨hfile.changed hdone.kernel ?_,
    h.layout.changed hchanged hdone.guard, hdone.bytes, hdone.room, hdone.chars⟩,
    hdone.typed.trans htyped, ?_, hchanged, ?_, ?_⟩
  · exact hbuf.sameImage hdone.changed
  · rw [hdone.console, hconsole]
  · rintro rfl
    exact hnone rfl
  · rw [pending, hrest, hpieces, pending]

theorem readLoop_eq (hm : Mounted sys.fs) (hbuf : UserBuffer sys.fs data (bufsize + 1))
    (hout : Stdout k₀) (h0 : 0 ∉ fileOf sys k₀ m₀ fd) {fuel : Nat}
    (h : AtRead sys k₀ m₀ fd s fname data pattern name held pos p)
    (hfuel : (fileOf sys k₀ m₀ fd).length - pos < fuel) :
    ∃ p', readLoop sys s pattern.length fname data fd fuel held.length p = some (0, p') ∧
      p'.kernel = setEntry fd (fun e => ⟨none, e.inode, 0, 0⟩) k₀ ∧ p'.typed = p.typed ∧
      p'.console = emit (pending pattern name held (fileOf sys k₀ m₀ fd) pos) p.console ∧
      ChangedIn data (bufsize + 1) p.mem p'.mem ∧ p'.mem (data + bufsize) ≠ 10 := by
  induction fuel generalizing p held pos with
  | zero => omega
  | succ fuel ih =>
    obtain ⟨q, held', out, p', hread, hloop, hnext, htyped, hconsole, hchanged, hnone, hpending⟩ :=
      read_round hm hbuf hout h0 h rfl
    generalize hchunk : ((fileOf sys k₀ m₀ fd).drop pos).take (bufsize - held.length) = chunk at *
    have hcnt : ¬ ((chunk.length : Int) = -1) := by omega
    simp only [readLoop, hread, Option.bind_eq_bind, Option.bind_some, hcnt, if_false,
      Int.toNat_natCast, hloop]
    by_cases hlast : chunk = []
    · have hheld := hnone hlast
      subst hheld hlast
      have hrest : (fileOf sys k₀ m₀ fd).drop pos = [] := by
        have hroom := h.room
        have hlen := congrArg List.length hchunk
        rw [List.length_take, List.length_nil] at hlen
        exact List.length_eq_zero_iff.mp (by omega)
      have hclose := hnext.file.close
      rw [if_pos (show ((([] : List UInt8).length : Nat) : Int) = 0 from rfl), closeFile, hclose]
      refine ⟨_, rfl, rfl, htyped, ?_, hchanged, hnext.layout.guard⟩
      rw [hpending, pending, List.length_nil, Nat.add_zero, hrest]
      simpa using hconsole
    · have hpos := List.length_pos_iff.mpr hlast
      rw [if_neg (by omega)]
      have hinside := hnext.file.inside
      obtain ⟨p'', hrun, hk, ht, hc, hch, hg⟩ := ih hnext (by omega)
      refine ⟨p'', hrun, hk, ht.trans htyped, ?_, hchanged.trans hch, hg⟩
      rw [hc, hconsole, hpending, emit_append]

/-- `do_one_file` on a text file writes the name and the line for every piece of the file that
contains the pattern, in the order of the file, and closes it; an empty pattern it finds in none.
Where no line fills the buffer the pieces are the lines. -/
theorem greps_file (hfits : imageEnd sys.fs ≤ 4294967296)
    (hown : p.kernel.pid = p.kernel.terminalProcessInfo p.kernel.currentTerminalId)
    (hout : Stdout p.kernel) (hlay : Layout s fname data pattern name p.mem)
    (hbuf : UserBuffer sys.fs data (bufsize + 1)) (hfree : freeDescriptor p.kernel = some fd)
    {dentry : Dentry} (hname : readDentryByName sys.mem sys.fs (byteAt name) = some dentry)
    (htype : dentry.fileType = 2) (hfile : RegularFile p.mem sys.fs dentry.inodeNum)
    {file : List UInt8} (hbytes : fileBytes p.mem sys.fs dentry.inodeNum = file) (h0 : 0 ∉ file)
    {fuel : Nat} (hfuel : file.length < fuel) :
    (∃ p', doOneFile sys fuel s fname data p = some (0, p') ∧
      p'.console = emit (output pattern name (pieces 10 bufsize [] file)) p.console ∧
      p'.kernel = setEntry fd (fun _ => ⟨none, dentry.inodeNum, 0, 0⟩) p.kernel ∧
      p'.typed = p.typed ∧ ChangedIn data (bufsize + 1) p.mem p'.mem) ∧
    ((∀ line ∈ file.splitOn 10, line.length < bufsize) →
      output pattern name (pieces 10 bufsize [] file) = output pattern name (file.splitOn 10)) := by
  have hm : Mounted sys.fs := mounted_fsInit sys.mem sys.bootblk hfits
  have hopen := open_entry hfree hname (openAs_file htype)
  have hne : fd ≠ -1 := by
    have hr := freeDescriptor_range hfree
    omega
  have hentry : entryAt (setEntry fd (fun _ => ⟨some .file, dentry.inodeNum, 0, 1⟩) p.kernel) fd =
      ⟨some .file, dentry.inodeNum, 0, 1⟩ := by rw [entryAt_setEntry, if_pos rfl]
  have hopened := openedFile_setEntry hfree hfile
  have hof : fileOf sys (setEntry fd (fun _ => ⟨some .file, dentry.inodeNum, 0, 1⟩) p.kernel) p.mem
      fd = file := by rw [fileOf, hentry, hbytes]
  have hlen : ece391Strlen p.mem s = pattern.length := hlay.holdsPattern.strlen hlay.short.1
  have hstart : AtRead sys (setEntry fd (fun _ => ⟨some .file, dentry.inodeNum, 0, 1⟩) p.kernel)
      p.mem fd s fname data pattern name [] 0
      { p with kernel := setEntry fd (fun _ => ⟨some .file, dentry.inodeNum, 0, 1⟩) p.kernel } :=
    ⟨fileAt_start hopened hown rfl fun _ _ _ => rfl, hlay, fun j hj => absurd hj (Nat.not_lt_zero j), by decide,
      List.not_mem_nil, List.not_mem_nil⟩
  refine ⟨?_, fun hshort => ?_⟩
  · obtain ⟨p', hrun, hk, ht, hc, hch, -⟩ := readLoop_eq hm hbuf
      (stdout_setEntry (freeDescriptor_range hfree).1 _ hout) (by rwa [hof]) hstart
      (by rw [hof]; omega)
    refine ⟨p', ?_, ?_, ?_, ht, hch⟩
    · simp only [doOneFile, hlay.holdsName.textAt hlay.short.2, hopen, if_neg hne, hlen]
      exact hrun
    · rw [hc, pending, hof, List.drop_zero, List.nil_append]
    · rw [hk, setEntry_setEntry]
  · rw [← output_filter, pieces_lines hshort, output_filter]

theorem greps_file_note :
    (∃ p', doOneFile noteSystem 6 0x8100000 0x8100010 0x8200000 noteProcess = some (0, p') ∧
      p'.console = emit (output (ascii "c") (ascii "note")
        (pieces 10 bufsize [] [97, 98, 10, 99, 100])) noteProcess.console ∧
      p'.kernel = setEntry 2 (fun _ => ⟨none, 0, 0, 0⟩) noteKernel ∧
      p'.typed = [] ∧ ChangedIn 0x8200000 (bufsize + 1) noteMem p'.mem) ∧
    ((∀ line ∈ ([97, 98, 10, 99, 100] : List UInt8).splitOn 10, line.length < bufsize) →
      output (ascii "c") (ascii "note") (pieces 10 bufsize [] [97, 98, 10, 99, 100]) =
        output (ascii "c") (ascii "note") (([97, 98, 10, 99, 100] : List UInt8).splitOn 10)) := by
  have hlay : Layout 0x8100000 0x8100010 0x8200000 (ascii "c") (ascii "note") noteProcess.mem :=
    ⟨⟨by decide, by decide⟩, ⟨by decide, by decide⟩, by decide, by decide, by decide, by decide,
      by decide⟩
  have hname : readDentryByName noteSystem.mem noteSystem.fs (byteAt (ascii "note")) =
      some ⟨2, 0⟩ := by decide
  exact greps_file (by decide) (by decide) noteStdout hlay (noteBuffer (by decide))
    (by decide) hname rfl noteFile (by decide +kernel) (by decide) (by decide)

end RedstoneOS.Grep
