import RedstoneOS.Printf
import RedstoneOS.ReadData

namespace RedstoneOS.FormatScan

open Library.ByteMemory Filesystem Itoa Printf

variable {call : Call} {p p' : Printing} {alternate : Bool} {fuel n : Nat}

/-- The character at this place is read behind a '%' and the '#'s that follow it. -/
def inConversion (format : Memory UInt8) : Nat → Bool
  | 0 => false
  | i + 1 => if inConversion format i then format i == 35 else format i == 37

structure Ends (format : Memory UInt8) (n : Nat) : Prop where
  text : ∀ i, i < n → format i ≠ 0
  nul : format n = 0

/-- The call returns the length of the format, and has read nothing behind its NUL. -/
def ReadsFormat (call : Call) (n : Nat) (out : Keyboard.State) : Prop :=
  ∃ fuel p, printf call fuel out = some ((n : Int), p) ∧ ∀ i ∈ p.reads, i ≤ n

theorem inConversion_next (h : inConversion call.format p.buf = false) :
    inConversion call.format (p.buf + 1) = decide (call.format p.buf = 37) := by
  rw [inConversion, h]
  rfl

theorem inConversion_alternate (h : inConversion call.format p.buf = true) :
    inConversion call.format (p.buf + 1) = decide (call.format p.buf = 35) := by
  rw [inConversion, h]
  rfl

theorem Ends.lt (h : Ends call.format n) {i : Nat} (hi : i ≤ n) (h0 : call.format i ≠ 0) : i < n := by
  apply Nat.lt_of_le_of_ne hi
  intro he
  exact h0 (he ▸ h.nul)

theorem Ends.eq (h : Ends call.format n) {i : Nat} (hi : i ≤ n) (h0 : call.format i = 0) : i = n := by
  by_contra hne
  exact h.text i (by omega) h0

/-- What a part of the scan leaves: every place that it has read lies at or before the NUL. -/
def ReadsTo (n : Nat) (p p' : Printing) : Prop := ∀ i ∈ p'.reads, i ∈ p.reads ∨ i ≤ n

theorem readsTo_read (h : p.buf ≤ n) : ReadsTo n p p.read := by
  intro i hi
  obtain rfl | hi := List.mem_cons.mp hi
  · exact Or.inr h
  · exact Or.inl hi

theorem readsTo_trans {p'' : Printing} (h : ReadsTo n p p') (h' : ReadsTo n p' p'') :
    ReadsTo n p p'' := by
  intro i hi
  obtain hi | hi := h' i hi
  · exact h i hi
  · exact Or.inr hi

structure Specifier (call : Call) (n : Nat) (p p' : Printing) : Prop where
  after : p.buf ≤ p'.buf
  before : p'.buf ≤ n
  other : call.format p'.buf ≠ 35
  conversion : inConversion call.format p'.buf = true
  reads : ReadsTo n p p'
  kept : ∀ i ∈ p.reads, i ∈ p'.reads

theorem alternates_specifier (hends : Ends call.format n) (hbuf : p.buf ≤ n)
    (hin : inConversion call.format p.buf = true) {a : Bool}
    (h : alternates call fuel alternate p = some (a, p')) : Specifier call n p p' := by
  induction fuel generalizing p alternate with
  | zero => cases h
  | succ fuel ih =>
    rw [alternates, Printing.read_buf] at h
    by_cases h35 : call.format p.buf = 35
    · have hlt : p.buf < n := hends.lt hbuf (by rw [h35]; decide)
      have hnext : inConversion call.format (p.buf + 1) = true := by
        rw [inConversion_alternate hin, h35]
        rfl
      rw [if_pos h35] at h
      obtain ⟨hafter, hbefore, hother, hconv, hreads, hkept⟩ := ih (p := p.read.next) hlt hnext h
      exact ⟨(Nat.le_succ p.buf).trans hafter, hbefore, hother, hconv,
        readsTo_trans (readsTo_read hbuf) hreads,
        fun i hi => hkept i (List.mem_cons_of_mem _ hi)⟩
    · rw [if_neg h35] at h
      obtain rfl := (Prod.mk.inj (Option.some.inj h)).2
      exact ⟨le_rfl, hbuf, h35, hin, readsTo_read hbuf, fun i hi => List.mem_cons_of_mem _ hi⟩

theorem alternates_total (hends : Ends call.format n) (hbuf : p.buf ≤ n) (hfuel : n - p.buf < fuel) :
    ∃ r, alternates call fuel alternate p = some r := by
  induction fuel generalizing p alternate with
  | zero => omega
  | succ fuel ih =>
    rw [alternates, Printing.read_buf]
    by_cases h35 : call.format p.buf = 35
    · have hlt : p.buf < n := hends.lt hbuf (by rw [h35]; decide)
      rw [if_pos h35]
      apply ih
      · exact hlt
      · rw [Printing.next_buf, Printing.read_buf]
        omega
    · rw [if_neg h35]
      exact ⟨_, rfl⟩

structure Converted (p p' : Printing) : Prop where
  buf : p'.buf = p.buf
  reads : p'.reads = p.reads
  stores : ∀ e ∈ p'.stores, e ∈ p.stores ∨ Inside e

theorem converted_number {text : List UInt8} {size : Nat} {c : Conversion} (h : Leaves text size c)
    (p : Printing) : Converted p (p.number size c) := ⟨rfl, rfl, number_stores h p⟩

theorem convertX_total (alternate : Bool) (v : UInt32) (uninit : Memory UInt8) :
    ∃ text c, convertX alternate v uninit = some c ∧ Leaves text 64 c := by
  cases alternate with
  | false => exact ⟨_, convertX_leaves v uninit⟩
  | true => exact ⟨_, convertX_alternate_leaves v uninit⟩

theorem formatChar_total (call : Call) (alternate : Bool) (p : Printing) :
    ∃ p', formatChar call alternate p = some p' ∧ Converted p p' := by
  obtain ⟨_, cx, hx, hleavesx⟩ := convertX_total alternate (call.args p.esp) (call.uninit p.esp)
  obtain ⟨cu, hu, hleavesu⟩ := convertU_leaves (call.args p.esp) (call.uninit p.esp)
  obtain ⟨cd, hd, hleavesd⟩ := convertD_leaves (call.args p.esp) (call.uninit p.esp)
  simp only [formatChar, hx, hu, hd, Option.map_some]
  split_ifs
  · exact ⟨_, rfl, rfl, rfl, fun _ he => Or.inl he⟩
  · exact ⟨_, rfl, converted_number hleavesx p⟩
  · exact ⟨_, rfl, converted_number hleavesu p⟩
  · exact ⟨_, rfl, converted_number hleavesd p⟩
  all_goals exact ⟨_, rfl, rfl, rfl, fun _ he => Or.inl he⟩

theorem formatChar_converted (h : formatChar call alternate p = some p') : Converted p p' := by
  obtain ⟨q, hq, hconverted⟩ := formatChar_total call alternate p
  rwa [Option.some.inj (h.symm.trans hq)]

theorem printfLoop_conversion (h : call.format p.buf = 37) : printfLoop call (fuel + 1) p =
    (alternates call fuel false p.read.next).bind fun r =>
      (formatChar call r.1 r.2).bind fun q => printfLoop call fuel q.next := by
  rw [printfLoop, Printing.read_buf, h]
  rfl

theorem printfLoop_plain (h0 : call.format p.buf ≠ 0) (h37 : call.format p.buf ≠ 37) :
    printfLoop call (fuel + 1) p =
      printfLoop call fuel (p.read.putc (call.format p.buf)).next := by
  rw [printfLoop, Printing.read_buf, if_neg h0, if_neg h37]

theorem printfLoop_end (h : call.format p.buf = 0) : printfLoop call (fuel + 1) p = some p.read := by
  rw [printfLoop, Printing.read_buf, if_pos h]

/-- All that one round of the loop can have done. -/
theorem printfLoop_cases (h : printfLoop call (fuel + 1) p = some p') :
    (call.format p.buf = 0 ∧ p' = p.read) ∨
    (call.format p.buf = 37 ∧ ∃ a q q', alternates call fuel false p.read.next = some (a, q) ∧
      Converted q q' ∧ printfLoop call fuel q'.next = some p') ∨
    (call.format p.buf ≠ 0 ∧ call.format p.buf ≠ 37 ∧
      printfLoop call fuel (p.read.putc (call.format p.buf)).next = some p') := by
  by_cases h0 : call.format p.buf = 0
  · rw [printfLoop_end h0] at h
    exact Or.inl ⟨h0, (Option.some.inj h).symm⟩
  · by_cases h37 : call.format p.buf = 37
    · rw [printfLoop_conversion h37] at h
      obtain ⟨⟨a, q⟩, halt, h⟩ := Option.bind_eq_some_iff.mp h
      obtain ⟨q', hchar, h⟩ := Option.bind_eq_some_iff.mp h
      exact Or.inr (Or.inl ⟨h37, a, q, q', halt, formatChar_converted hchar, h⟩)
    · rw [printfLoop_plain h0 h37] at h
      exact Or.inr (Or.inr ⟨h0, h37, h⟩)

theorem reads_closed (hends : Ends call.format n) (hclosed : inConversion call.format n = false)
    (hbuf : p.buf ≤ n) (hout : inConversion call.format p.buf = false) (hfuel : n - p.buf < fuel) :
    ∃ p', printfLoop call fuel p = some p' ∧ p'.buf = n ∧ ReadsTo n p p' := by
  induction fuel generalizing p with
  | zero => omega
  | succ fuel ih =>
    by_cases h0 : call.format p.buf = 0
    · exact ⟨p.read, printfLoop_end h0, hends.eq hbuf h0, readsTo_read hbuf⟩
    · have hlt := hends.lt hbuf h0
      have hnext := inConversion_next hout
      by_cases h37 : call.format p.buf = 37
      · rw [h37, decide_eq_true rfl] at hnext
        have htotal : ∃ r, alternates call fuel false p.read.next = some r :=
          alternates_total hends hlt (show n - (p.buf + 1) < fuel by omega)
        obtain ⟨⟨a, q⟩, halt⟩ := htotal
        have hspec := alternates_specifier (p := p.read.next) hends hlt hnext halt
        obtain ⟨q', hchar, hconv⟩ := formatChar_total call a q
        have hq : q.buf < n := by
          apply Nat.lt_of_le_of_ne hspec.before
          intro he
          rw [← he, hspec.conversion] at hclosed
          cases hclosed
        have hq' : inConversion call.format (q'.buf + 1) = false := by
          rw [hconv.buf, inConversion_alternate hspec.conversion]
          exact decide_eq_false hspec.other
        have hafter : p.buf + 1 ≤ q.buf := hspec.after
        have hnextbuf : q'.next.buf = q.buf + 1 := by rw [Printing.next_buf, hconv.buf]
        obtain ⟨p', hloop, hend, hreads⟩ := ih (p := q'.next) (by omega) hq' (by omega)
        refine ⟨p', ?_, hend, ?_⟩
        · rw [printfLoop_conversion h37, halt, Option.bind_some, hchar, Option.bind_some, hloop]
        · apply readsTo_trans (readsTo_read hbuf)
          apply readsTo_trans hspec.reads
          intro i hi
          rw [← hconv.reads]
          exact hreads i hi
      · rw [decide_eq_false h37] at hnext
        obtain ⟨p', hloop, hend, hreads⟩ := ih (p := (p.read.putc (call.format p.buf)).next) hlt hnext
          (show n - (p.buf + 1) < fuel by omega)
        exact ⟨p', (printfLoop_plain h0 h37).trans hloop, hend, readsTo_trans (readsTo_read hbuf) hreads⟩

theorem alternates_kept {a : Bool} (h : alternates call fuel alternate p = some (a, p')) :
    ∀ i ∈ p.reads, i ∈ p'.reads := by
  induction fuel generalizing p alternate with
  | zero => cases h
  | succ fuel ih =>
    intro i hi
    rw [alternates] at h
    split at h
    · exact ih h i (List.mem_cons_of_mem _ hi)
    · obtain rfl := (Prod.mk.inj (Option.some.inj h)).2
      exact List.mem_cons_of_mem _ hi

theorem printfLoop_kept (h : printfLoop call fuel p = some p') :
    ∀ i ∈ p.read.reads, i ∈ p'.reads := by
  induction fuel generalizing p with
  | zero => cases h
  | succ fuel ih =>
    intro i hi
    obtain ⟨-, rfl⟩ | ⟨-, a, q, q', halt, hconv, h⟩ | ⟨-, -, h⟩ := printfLoop_cases h
    · exact hi
    · apply ih h
      apply List.mem_cons_of_mem
      rw [Printing.next_reads, hconv.reads]
      exact alternates_kept halt i hi
    · exact ih h i (List.mem_cons_of_mem _ hi)

theorem reads_open (hends : Ends call.format n) (hopen : inConversion call.format n = true)
    (hbuf : p.buf ≤ n) (hout : inConversion call.format p.buf = false)
    (h : printfLoop call fuel p = some p') : n + 1 ∈ p'.reads := by
  induction fuel generalizing p with
  | zero => cases h
  | succ fuel ih =>
    have hnext := inConversion_next hout
    obtain ⟨h0, -⟩ | ⟨h37, a, q, q', halt, hconv, h⟩ | ⟨h0, h37, h⟩ := printfLoop_cases h
    · rw [← hends.eq hbuf h0, hout] at hopen
      cases hopen
    · have hlt : p.buf < n := hends.lt hbuf (by rw [h37]; decide)
      have hnextbuf : q'.next.buf = q.buf + 1 := by rw [Printing.next_buf, hconv.buf]
      rw [h37, decide_eq_true rfl] at hnext
      have hspec := alternates_specifier (p := p.read.next) hends hlt hnext halt
      by_cases hq : q.buf = n
      -- the character behind the '%' is the NUL, and the loop goes on behind it
      · apply printfLoop_kept h
        rw [Printing.read_reads, hnextbuf, hq]
        exact List.mem_cons_self
      · have hbefore := hspec.before
        apply ih (p := q'.next) (by omega) _ h
        rw [hnextbuf, inConversion_alternate hspec.conversion]
        exact decide_eq_false hspec.other
    · rw [decide_eq_false h37] at hnext
      exact ih (p := (p.read.putc (call.format p.buf)).next) (hends.lt hbuf h0) hnext h

theorem printfLoop_stops (h : printfLoop call fuel p = some p') :
    call.format p'.buf = 0 ∧ p'.buf ∈ p'.reads := by
  induction fuel generalizing p with
  | zero => cases h
  | succ fuel ih =>
    obtain ⟨h0, rfl⟩ | ⟨-, a, q, q', -, -, h⟩ | ⟨-, -, h⟩ := printfLoop_cases h
    · exact ⟨h0, List.mem_cons_self⟩
    · exact ih h
    · exact ih h

theorem alternates_stores {a : Bool} (h : alternates call fuel alternate p = some (a, p')) :
    p'.stores = p.stores := by
  induction fuel generalizing p alternate with
  | zero => cases h
  | succ fuel ih =>
    rw [alternates] at h
    split at h
    · exact ih (p := p.read.next) h
    · rw [← (Prod.mk.inj (Option.some.inj h)).2]
      rfl

/-- Whatever the format and its arguments, no store of a call leaves its array. -/
theorem printfLoop_stores (hp : ∀ e ∈ p.stores, Inside e) (h : printfLoop call fuel p = some p') :
    ∀ e ∈ p'.stores, Inside e := by
  induction fuel generalizing p with
  | zero => cases h
  | succ fuel ih =>
    obtain ⟨-, rfl⟩ | ⟨-, a, q, q', halt, hconv, h⟩ | ⟨-, -, h⟩ := printfLoop_cases h
    · exact hp
    · refine ih (fun e he => ?_) h
      obtain he | he := hconv.stores e he
      · rw [alternates_stores halt] at he
        exact hp e he
      · exact he
    · exact ih (p := (p.read.putc (call.format p.buf)).next) hp h

theorem s32_wrap_eq : s32 (wrap n) = (n : Int) ↔ n < 2147483648 := by
  rw [s32]
  generalize hw : wrap n = w
  simp only [wrap] at hw
  constructor
  · intro h
    split at h <;> omega
  · intro h
    rw [if_pos (by omega)]
    omega

/-- The scan ends at the NUL for the formats that do not end inside a conversion and whose
length is an `int32_t`, and for no others. -/
theorem readsFormat_iff (call : Call) (n : Nat) (out : Keyboard.State) (h : Ends call.format n) :
    ReadsFormat call n out ↔ inConversion call.format n = false ∧ n < 2147483648 := by
  constructor
  · rintro ⟨fuel, p, hprintf, hreads⟩
    obtain ⟨q, hloop, hq⟩ := Option.map_eq_some_iff.mp hprintf
    obtain ⟨hvalue, rfl⟩ := Prod.mk.inj hq
    have hclosed : inConversion call.format n = false := by
      by_contra hopen
      have hmem := reads_open h (Bool.eq_true_of_not_eq_false hopen) (Nat.zero_le n) rfl hloop
      have hle := hreads (n + 1) hmem
      omega
    obtain ⟨h0, hmem⟩ := printfLoop_stops hloop
    rw [h.eq (hreads _ hmem) h0] at hvalue
    exact ⟨hclosed, s32_wrap_eq.mp hvalue⟩
  · rintro ⟨hclosed, hlt⟩
    obtain ⟨p', hloop, hend, hreads⟩ := reads_closed h hclosed (p := .start out)
      (Nat.zero_le n) rfl (Nat.lt_succ_self n)
    refine ⟨n + 1, p', ?_, ?_⟩
    · rw [printf, hloop, Option.map_some, hend, s32_wrap_eq.mpr hlt]
    · intro i hi
      obtain hnone | hle := hreads i hi
      · cases hnone
      · exact hle

def callOf (text : List UInt8) : Call where
  format i := text.getD i 0
  args _ := 0
  strings _ := []
  uninit _ _ := 0

theorem ends_callOf {text : List UInt8} (h0 : 0 ∉ text) : Ends (callOf text).format text.length where
  text i hi he := by
    have hget : text.getD i 0 = text[i] := List.getD_eq_getElem text 0 hi
    exact h0 ((hget.symm.trans he) ▸ List.getElem_mem hi)
  nul := List.getD_eq_default text 0 (Nat.le_refl _)

theorem readsFormat_iff_hex : ReadsFormat (callOf [37, 35, 120]) 3 (Keyboard.beforeClear fun _ => 0) ↔
    inConversion (callOf [37, 35, 120]).format 3 = false ∧ 3 < 2147483648 :=
  readsFormat_iff (callOf [37, 35, 120]) 3 (Keyboard.beforeClear fun _ => 0) (ends_callOf (by decide))

/-- "100%" is read on behind its NUL. -/
theorem percent_at_end : Ends (callOf [49, 48, 48, 37]).format 4 ∧
    ∀ out, ¬ ReadsFormat (callOf [49, 48, 48, 37]) 4 out := by
  refine ⟨ends_callOf (by decide), ?_⟩
  rintro out ⟨fuel, p, hprintf, hreads⟩
  obtain ⟨q, hloop, hq⟩ := Option.map_eq_some_iff.mp hprintf
  obtain ⟨-, rfl⟩ := Prod.mk.inj hq
  have hmem := reads_open (ends_callOf (by decide)) rfl (Nat.zero_le _) rfl hloop
  exact absurd (hreads _ hmem) (by decide)

end RedstoneOS.FormatScan
