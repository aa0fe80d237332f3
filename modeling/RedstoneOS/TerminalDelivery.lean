import RedstoneOS.TerminalInput
import Mathlib.Data.List.GetD

namespace RedstoneOS.TerminalDelivery

open Library.ByteMemory Library.Runs TerminalInput

variable {s : State} {es : List Event} {t : Fin 3} {line : List UInt8} {buf : Memory UInt8}

structure Spells (buf : Memory UInt8) (line : List UInt8) : Prop where
  short : line.length ≤ maxChar
  chars : ∀ c ∈ line, c ≠ 0
  bytes : ∀ j, j ≤ line.length → buf j = line.getD j 0

structure KeysHeld (buf : Memory UInt8) (size : Nat) (typed : List UInt8) : Prop where
  size : size = typed.length
  short : typed.length ≤ buffSizeLimit
  chars : ∀ c ∈ typed, c ≠ 0
  bytes : ∀ j, buf j = typed.getD j 0

structure Inv (s : State) : Prop where
  keys : ∀ t, KeysHeld (s.keyBuf t) (s.keyBuffSize t) (s.typed t)
  lines : ∀ t line, s.unread t = some line → Spells (s.outBuf t) line
  flag : ∀ t line, s.unread t = some line → s.readReady = 0 ∨ ∃ n, s.reader t = .ready n
  inside : ∀ t n, s.reader t = .passed n ∨ s.reader t = .ready n → s.unread t ≠ none
  last : s.readReady = 0 → ∃ t, s.lastEnter = some t ∧ s.unread t ≠ none ∧
    ∀ n, s.reader t ≠ .ready n
  returns : ∀ r ∈ s.returns, ∃ line, r.line = some line ∧ r.bytes = line.take r.nbytes.toNat

theorem getD_append_new (l : List UInt8) (c : UInt8) (j : Nat) :
    (l ++ [c]).getD j 0 = if j = l.length then c else l.getD j 0 := by
  by_cases hj : j < l.length
  · rw [if_neg (by omega), List.getD_append _ _ _ _ hj]
  · by_cases he : j = l.length
    · simp [he]
    · rw [if_neg he, List.getD_eq_default _ _ (by simp; omega), List.getD_eq_default _ _ (by omega)]

theorem keysHeld_key {size : Nat} {typed : List UInt8} {c : UInt8} (h : KeysHeld buf size typed)
    (hc : c ≠ 0) (hroom : size ≠ buffSizeLimit) :
    KeysHeld (Function.update buf size c) (size + 1) (typed ++ [c]) where
  size := by simp [h.size]
  short := by
    have hs := h.short
    have hsize := h.size
    simp only [List.length_append, List.length_singleton]
    omega
  chars d hd := by
    obtain hd | hd := List.mem_append.mp hd
    · exact h.chars d hd
    · rw [List.mem_singleton.mp hd]
      exact hc
  bytes j := by
    rw [getD_append_new, ← h.size]
    by_cases hj : j = size
    · rw [hj, Function.update_self, if_pos rfl]
    · rw [Function.update_of_ne hj, if_neg hj, h.bytes j]

theorem keysHeld_backspace {size : Nat} {typed : List UInt8} (h : KeysHeld buf size typed)
    (hsome : 0 < size) :
    KeysHeld (Function.update buf (size - 1) 0) (size - 1) typed.dropLast where
  size := by simp [h.size]
  short := by
    have hs := h.short
    simp only [List.length_dropLast]
    omega
  chars d hd := h.chars d (List.dropLast_subset typed hd)
  bytes j := by
    have hsize := h.size
    by_cases hj : j = size - 1
    · rw [hj, Function.update_self, List.getD_eq_default _ _ (by simp; omega)]
    · rw [Function.update_of_ne hj, h.bytes j]
      by_cases hlt : j < typed.length - 1
      · have hlt' : j < typed.length := by omega
        simp [List.getD_eq_getElem?_getD, hlt, hlt']
      · rw [List.getD_eq_default _ _ (by omega), List.getD_eq_default _ _ (by simp; omega)]

def enteredSize (size : Nat) : Nat := if size < buffSizeLimit then size + 1 else size

def enteredBuf (buf : Memory UInt8) (size : Nat) : Memory UInt8 :=
  if size < buffSizeLimit then Function.update (Function.update buf size 10) (size + 1) 0
  else Function.update buf size 0

theorem enteredLine_length {typed : List UInt8} :
    (enteredLine typed).length = enteredSize typed.length := by
  by_cases hroom : typed.length < buffSizeLimit
  · simp [enteredLine, enteredSize, hroom]
  · simp [enteredLine, enteredSize, hroom]

theorem spells_entered {typed : List UInt8} {size : Nat} (h : KeysHeld buf size typed) :
    Spells (enteredBuf buf size) (enteredLine typed) := by
  have hsize := h.size
  have hshort := h.short
  by_cases hroom : size < buffSizeLimit
  · have htyped : typed.length < buffSizeLimit := by omega
    simp only [enteredBuf, enteredLine, if_pos hroom, if_pos htyped]
    have hk := keysHeld_key (c := 10) h (by decide) (by omega)
    refine ⟨hk.short, hk.chars, fun j hj => ?_⟩
    by_cases he : j = size + 1
    · rw [he, Function.update_self, List.getD_eq_default _ _ (by simp; omega)]
    · rw [Function.update_of_ne he, hk.bytes j]
  · have htyped : ¬ typed.length < buffSizeLimit := by omega
    simp only [enteredBuf, enteredLine, if_neg hroom, if_neg htyped]
    refine ⟨h.short, h.chars, fun j hj => ?_⟩
    by_cases he : j = size
    · rw [he, Function.update_self, List.getD_eq_default _ _ (by omega)]
    · rw [Function.update_of_ne he, h.bytes j]

theorem enteredBuf_above {typed : List UInt8} {size j : Nat} (h : KeysHeld buf size typed)
    (hj : enteredSize size < j) : enteredBuf buf size j = 0 := by
  have hsize := h.size
  by_cases hroom : size < buffSizeLimit
  · simp only [enteredSize, if_pos hroom] at hj
    rw [enteredBuf, if_pos hroom, Function.update_of_ne (by omega), Function.update_of_ne (by omega),
      h.bytes j, List.getD_eq_default _ _ (by omega)]
  · simp only [enteredSize, if_neg hroom] at hj
    rw [enteredBuf, if_neg hroom, Function.update_of_ne (by omega), h.bytes j,
      List.getD_eq_default _ _ (by omega)]

theorem keysHeld_cleared {typed : List UInt8} {size : Nat} (h : KeysHeld buf size typed) :
    KeysHeld (fill (enteredBuf buf size) 0 (fun _ => 0) (enteredSize size + 1)) 0 [] := by
  refine ⟨rfl, by simp [buffSizeLimit], by simp, fun j => ?_⟩
  rw [List.getD_nil]
  by_cases hj : j < enteredSize size + 1
  · have hz := fill_inside (enteredBuf buf size) 0 (fun _ => (0 : UInt8)) hj
    rwa [Nat.zero_add] at hz
  · rw [fill_outside _ _ _ (by omega)]
    exact enteredBuf_above h (by omega)

theorem spells_congr {buf' : Memory UInt8} (h : Spells buf line)
    (hb : ∀ j, j ≤ line.length → buf' j = buf j) : Spells buf' line :=
  ⟨h.short, h.chars, fun j hj => (hb j hj).trans (h.bytes j hj)⟩

theorem copyLoop_eq {l : List UInt8} (h : Spells buf l) (nbytes : Nat) {fuel i : Nat}
    (hi : i ≤ l.length) (hfuel : fuel + i = maxChar) :
    copyLoop buf nbytes fuel i = (l.drop i).take (nbytes - i) := by
  have hshort := h.short
  induction fuel generalizing i with
  | zero =>
    have hlen : i = l.length := by omega
    simp [copyLoop, hlen]
  | succ fuel ih =>
    rw [copyLoop]
    by_cases hc : i < nbytes ∧ buf i ≠ 0
    · have hlt : i < l.length := by
        by_contra hge
        have hend := h.bytes i hi
        rw [List.getD_eq_default _ _ (by omega)] at hend
        exact hc.2 hend
      have hbyte : buf i = l[i] := by
        rw [h.bytes i hi, List.getD_eq_getElem _ _ hlt]
      have hn : nbytes - i = (nbytes - (i + 1)) + 1 := by omega
      rw [if_pos hc, ih (by omega) (by omega), hbyte, List.drop_eq_getElem_cons hlt, hn,
        List.take_succ_cons]
    · rw [if_neg hc]
      by_cases hn : i < nbytes
      · have hlen : i = l.length := by
          by_contra hne
          have hlt : i < l.length := by omega
          refine hc ⟨hn, ?_⟩
          rw [h.bytes i hi, List.getD_eq_getElem _ _ hlt]
          exact h.chars _ (List.getElem_mem hlt)
        simp [hlen]
      · have h0 : nbytes - i = 0 := by omega
        rw [h0, List.take_zero]

theorem inv_initial (d c : Fin 3) : Inv (initial d c) where
  keys _ := ⟨rfl, by simp [initial, buffSizeLimit], by simp [initial], by simp [initial]⟩
  lines _ _ h := by simp [initial] at h
  flag _ _ h := by simp [initial] at h
  inside _ _ h := by simp [initial] at h
  last h := by simp [initial] at h
  returns _ h := by simp [initial] at h

theorem inv_keys (h : Inv s) {buf : Memory UInt8} {size : Nat} {typed : List UInt8}
    (hk : KeysHeld buf size typed) :
    Inv { s with
      keyBuf := Function.update s.keyBuf s.terminalId buf
      keyBuffSize := Function.update s.keyBuffSize s.terminalId size
      typed := Function.update s.typed s.terminalId typed } where
  keys u := by
    by_cases hu : u = s.terminalId
    · subst hu
      simpa only [Function.update_self] using hk
    · simpa only [Function.update_of_ne hu] using h.keys u
  lines := h.lines
  flag := h.flag
  inside := h.inside
  last := h.last
  returns := h.returns

theorem inv_key (h : Inv s) (c : UInt8) : Inv (keyPressed c s) := by
  rw [keyPressed]
  split
  · next hc =>
    refine inv_keys h (keysHeld_key (h.keys s.terminalId) ?_ hc.2.2)
    rintro rfl
    exact absurd hc.1 (by decide)
  · exact h

theorem inv_backspace (h : Inv s) : Inv (backspacePressed s) := by
  rw [backspacePressed]
  split
  · next hsome => exact inv_keys h (keysHeld_backspace (h.keys s.terminalId) hsome)
  · exact h

theorem enterPressed_eq (s : State) :
    enterPressed s =
      { s with
        outBuf := Function.update s.outBuf s.terminalId
          (fill (s.outBuf s.terminalId) 0
            (enteredBuf (s.keyBuf s.terminalId) (s.keyBuffSize s.terminalId))
            (enteredSize (s.keyBuffSize s.terminalId) + 1))
        keyBuf := Function.update s.keyBuf s.terminalId
          (fill (enteredBuf (s.keyBuf s.terminalId) (s.keyBuffSize s.terminalId)) 0 (fun _ => 0)
            (enteredSize (s.keyBuffSize s.terminalId) + 1))
        keyBuffSize := Function.update s.keyBuffSize s.terminalId 0
        readReady := 0
        typed := Function.update s.typed s.terminalId []
        unread := Function.update s.unread s.terminalId (some (enteredLine (s.typed s.terminalId)))
        lastEnter := some s.terminalId } := rfl

theorem inv_enter (h : Inv s) (hin : InOrder s .enter) : Inv (enterPressed s) := by
  have hkeys := h.keys s.terminalId
  rw [enterPressed_eq]
  constructor
  · intro u
    by_cases hu : u = s.terminalId
    · subst hu
      simp only [Function.update_self]
      exact keysHeld_cleared hkeys
    · simpa only [Function.update_of_ne hu] using h.keys u
  · intro u line hline
    by_cases hu : u = s.terminalId
    · subst hu
      simp only [Function.update_self, Option.some.injEq] at hline ⊢
      subst hline
      refine spells_congr (spells_entered hkeys) fun j hj => ?_
      rw [enteredLine_length, ← hkeys.size] at hj
      have hz := fill_inside (s.outBuf s.terminalId) 0
        (enteredBuf (s.keyBuf s.terminalId) (s.keyBuffSize s.terminalId)) (Nat.lt_succ_of_le hj)
      rwa [Nat.zero_add] at hz
    · simp only [Function.update_of_ne hu] at hline ⊢
      exact h.lines u line hline
  · exact fun _ _ _ => Or.inl rfl
  · intro u n hu
    by_cases hut : u = s.terminalId
    · simp [hut]
    · simp only [Function.update_of_ne hut]
      exact h.inside u n hu
  · exact fun _ => ⟨s.terminalId, rfl, by simp, hin⟩
  · exact h.returns

theorem inv_setReader (h : Inv s) {r : Reader}
    (hflag : ∀ line, s.unread s.currentTerminalId = some line →
      s.readReady = 0 ∨ ∃ n, r = .ready n)
    (hinside : ∀ n, r = .passed n ∨ r = .ready n → s.unread s.currentTerminalId ≠ none)
    (hlast : s.readReady = 0 → ∀ n, r ≠ .ready n) : Inv (setReader r s) where
  keys := h.keys
  lines := h.lines
  flag u line hu := by
    by_cases hut : u = s.currentTerminalId
    · subst hut
      simpa only [setReader, Function.update_self] using hflag line hu
    · simpa only [setReader, Function.update_of_ne hut] using h.flag u line hu
  inside u n hu := by
    by_cases hut : u = s.currentTerminalId
    · subst hut
      simp only [setReader, Function.update_self] at hu ⊢
      exact hinside n hu
    · simp only [setReader, Function.update_of_ne hut] at hu ⊢
      exact h.inside u n hu
  last h0 := by
    obtain ⟨u, hu, hunread, hready⟩ := h.last h0
    refine ⟨u, hu, hunread, fun n => ?_⟩
    by_cases hut : u = s.currentTerminalId
    · subst hut
      simpa only [setReader, Function.update_self] using hlast h0 n
    · simpa only [setReader, Function.update_of_ne hut] using hready n
  returns := h.returns

theorem inv_call (h : Inv s) (nbytes : Int) : Inv (step s (.call nbytes)) := by
  simp only [step]
  split
  · next hidle =>
    refine inv_setReader h (fun line hline => Or.inl ?_) (by simp) (by simp)
    exact (h.flag _ line hline).resolve_right (by simp [hidle])
  · exact h

theorem inv_test (h : Inv s) (hin : InOrder s .test) : Inv (step s .test) := by
  simp only [step]
  split
  · next nbytes hwait =>
    split
    · exact h
    · next hpass =>
      rw [not_or, not_not, not_not] at hpass
      obtain ⟨h0, hdisplayed⟩ := hpass
      obtain ⟨u, hu, hunread, -⟩ := h.last h0
      have hlast := hin nbytes hwait h0 hdisplayed
      rw [hu, Option.some.injEq] at hlast
      subst hlast
      exact inv_setReader h (fun _ _ => Or.inl h0) (fun _ _ => hunread) (by simp)
  · exact h

theorem inv_setReady (h : Inv s) (hin : InOrder s .setReady) : Inv (step s .setReady) := by
  simp only [step]
  split
  · next nbytes hpassed =>
    have hothers := hin nbytes hpassed
    have hunread := h.inside _ nbytes (Or.inl hpassed)
    refine ⟨h.keys, h.lines, fun u line hu => ?_, fun u n hu => ?_, fun h0 => by simp [setReader] at h0,
      h.returns⟩
    · by_cases hut : u = s.currentTerminalId
      · subst hut
        exact Or.inr ⟨nbytes, Function.update_self _ _ _⟩
      · have hnone := hothers u hut
        simp only [setReader] at hu
        rw [hnone] at hu
        cases hu
    · by_cases hut : u = s.currentTerminalId
      · subst hut
        exact hunread
      · simp only [setReader, Function.update_of_ne hut] at hu
        exact h.inside u n hu
  · exact h

theorem copyOut_unread_self (s : State) (nbytes : Int) :
    (copyOut nbytes s).unread s.currentTerminalId = none := by simp [copyOut]

theorem copyOut_other {u : Fin 3} (hu : u ≠ s.currentTerminalId) (nbytes : Int) :
    (copyOut nbytes s).unread u = s.unread u ∧ (copyOut nbytes s).reader u = s.reader u ∧
      (s.terminalId = s.currentTerminalId → (copyOut nbytes s).outBuf u = s.outBuf u) := by
  refine ⟨by simp [copyOut, hu], by simp [copyOut, hu], fun hd => ?_⟩
  simp only [copyOut, hd]
  split
  · rfl
  · exact Function.update_of_ne hu _ _

theorem copyOut_returns (s : State) (nbytes : Int) :
    (copyOut nbytes s).returns =
      ⟨s.currentTerminalId, nbytes,
        if nbytes ≤ 0 then [] else copyLoop (s.outBuf s.terminalId) nbytes.toNat maxChar 0,
        s.unread s.currentTerminalId⟩ :: s.returns := rfl

theorem copied_eq (h : Spells buf line) (nbytes : Int) :
    (if nbytes ≤ 0 then [] else copyLoop buf nbytes.toNat maxChar 0) = line.take nbytes.toNat := by
  split
  · next hn => rw [Int.toNat_of_nonpos hn, List.take_zero]
  · rw [copyLoop_eq h nbytes.toNat (Nat.zero_le _) (Nat.add_zero maxChar), List.drop_zero,
      Nat.sub_zero]

theorem inv_copyOut (h : Inv s) {nbytes : Int} (hready : s.reader s.currentTerminalId = .ready nbytes)
    (hdisplayed : s.terminalId = s.currentTerminalId) : Inv (copyOut nbytes s) := by
  obtain ⟨line, hline⟩ := Option.ne_none_iff_exists'.mp (h.inside _ nbytes (Or.inr hready))
  have hother : ∀ u l, (copyOut nbytes s).unread u = some l → u ≠ s.currentTerminalId := by
    rintro u l hu rfl
    rw [copyOut_unread_self] at hu
    cases hu
  have hidle : (copyOut nbytes s).reader s.currentTerminalId = .idle := by simp [copyOut]
  constructor
  · exact h.keys
  · intro u l hu
    have hut := hother u l hu
    obtain ⟨hunread, -, hout⟩ := copyOut_other hut nbytes
    rw [hunread] at hu
    rw [hout hdisplayed]
    exact h.lines u l hu
  · intro u l hu
    have hut := hother u l hu
    obtain ⟨hunread, hreader, -⟩ := copyOut_other hut nbytes
    rw [hunread] at hu
    rw [hreader]
    exact h.flag u l hu
  · intro u n hu
    by_cases hut : u = s.currentTerminalId
    · subst hut
      simp [hidle] at hu
    · obtain ⟨hunread, hreader, -⟩ := copyOut_other hut nbytes
      rw [hreader] at hu
      rw [hunread]
      exact h.inside u n hu
  · intro h0
    obtain ⟨u, hu, hunread, hnot⟩ := h.last h0
    have hut : u ≠ s.currentTerminalId := by
      rintro rfl
      exact hnot nbytes hready
    obtain ⟨hunread', hreader, -⟩ := copyOut_other hut nbytes
    refine ⟨u, hu, ?_, ?_⟩
    · rwa [hunread']
    · rwa [hreader]
  · intro r hr
    rw [copyOut_returns] at hr
    obtain rfl | hr := List.mem_cons.mp hr
    · refine ⟨line, hline, ?_⟩
      rw [hdisplayed]
      exact copied_eq (h.lines _ line hline) nbytes
    · exact h.returns r hr

theorem inv_copy (h : Inv s) (hin : InOrder s .copy) : Inv (step s .copy) := by
  simp only [step]
  split
  · next nbytes hready => exact inv_copyOut h hready (hin nbytes hready)
  · exact h

theorem inv_step (h : Inv s) {e : Event} (he : InOrder s e) : Inv (step s e) := by
  cases e with
  | key c => exact inv_key h c
  | backspace => exact inv_backspace h
  | enter => exact inv_enter h he
  | altFn target => exact ⟨h.keys, h.lines, h.flag, h.inside, h.last, h.returns⟩
  | tick => exact ⟨h.keys, h.lines, h.flag, h.inside, h.last, h.returns⟩
  | call nbytes => exact inv_call h nbytes
  | test => exact inv_test h he
  | setReady => exact inv_setReady h he
  | copy => exact inv_copy h he

/-- An unread line can be read: it is in the buffer of its terminal, and a process of the
terminal has left its loop or will leave it. -/
structure Available (s : State) (t : Fin 3) (line : List UInt8) : Prop where
  held : Spells (s.outBuf t) line
  flag : s.readReady = 0 ∨ ∃ n, s.reader t = .ready n

theorem read_available {nbytes : Int} (h : Available s t line)
    (hcurrent : s.currentTerminalId = t) (hdisplayed : s.terminalId = t)
    (hwait : s.reader t = .waiting nbytes) :
    (run step s [.test, .setReady, .copy]).returns =
      ⟨t, nbytes, line.take nbytes.toNat, s.unread t⟩ :: s.returns := by
  subst hcurrent
  have h0 : s.readReady = 0 := h.flag.resolve_right (by simp [hwait])
  have hbytes := copied_eq h.held nbytes
  simp [step, hwait, h0, hdisplayed, setReader, copyOut, hbytes]

/-- For every interleaving in which the steps are in order: each `terminal_read` returns
after an Enter on its terminal since the previous one returned, with the first bytes of the
line of the last such Enter, and a line that is not superseded stays available until a
`terminal_read` of its terminal returns. -/
theorem input_delivered (displayed scheduled : Fin 3) {es : List Event}
    (hes : Along step InOrder (initial displayed scheduled) es) :
    (∀ r ∈ (run step (initial displayed scheduled) es).returns,
      ∃ line, r.line = some line ∧ r.bytes = line.take r.nbytes.toNat) ∧
      ∀ t line, (run step (initial displayed scheduled) es).unread t = some line →
        Available (run step (initial displayed scheduled) es) t line := by
  have hinv := run_invariant (J := Inv) (fun _ _ hm he => inv_step hm he)
    (inv_initial displayed scheduled) hes
  exact ⟨hinv.returns, fun t line hline => ⟨hinv.lines t line hline, hinv.flag t line hline⟩⟩

def turnRun : List Event :=
  [.key 97, .enter, .tick, .tick, .tick, .call 10, .test, .setReady, .copy]

theorem turnRun_inOrder : Along step InOrder (initial 0 0) turnRun :=
  ⟨trivial, fun _ => Reader.noConfusion, trivial, trivial, trivial, trivial,
    fun _ _ _ _ => rfl, fun _ _ _ hu => Function.update_of_ne hu _ _, fun _ _ => rfl, trivial⟩

theorem input_delivered_turn :
    (run step (initial 0 0) turnRun).returns = [⟨0, 10, [97, 10], some [97, 10]⟩] ∧
      ∀ r ∈ (run step (initial 0 0) turnRun).returns,
        ∃ line, r.line = some line ∧ r.bytes = line.take r.nbytes.toNat :=
  ⟨by decide +kernel, (input_delivered 0 0 turnRun_inOrder).1⟩

def stolenRun : List Event :=
  [.key 97, .enter, .altFn KernelState.altF2, .tick, .call 10, .test, .setReady, .copy]

theorem wakeup_stolen :
    (run step (initial 0 0) stolenRun).returns = [⟨1, 10, [], none⟩] ∧
      (run step (initial 0 0) stolenRun).unread 0 = some [97, 10] ∧
      ¬ Available (run step (initial 0 0) stolenRun) 0 [97, 10] := by
  refine ⟨by decide +kernel, by decide +kernel, fun h => ?_⟩
  have hready : (run step (initial 0 0) stolenRun).readReady = 1 := by decide +kernel
  have hidle : (run step (initial 0 0) stolenRun).reader 0 = .idle := by decide +kernel
  obtain hflag | ⟨n, hn⟩ := h.flag
  · omega
  · rw [hidle] at hn
    cases hn

end RedstoneOS.TerminalDelivery
