import Mathlib.Data.List.Infix
import RedstoneOS.Execute
import RedstoneOS.Ece391Support

namespace RedstoneOS.UserStrings

open Lib Library.ByteMemory Execute Itoa Ece391Support

def ascii (s : String) : List UInt8 := s.toList.map (fun c => UInt8.ofNat c.toNat)

def ece391StrcpyLoop : Nat → Nat → Nat → Mem → Mem
  | 0, _, _, m => m
  | fuel + 1, dst, src, m =>
    if m src = 0 then Function.update m dst (m src)
    else ece391StrcpyLoop fuel (dst + 1) (src + 1) (Function.update m dst (m src))

def ece391Strcpy (dst src : Nat) (m : Mem) : Mem := ece391StrcpyLoop addressSpace dst src m

def ece391StrcmpLoop (s₁ s₂ : Nat → UInt8) : Nat → Nat → Int
  | 0, _ => 0
  | fuel + 1, i =>
    if s₁ i = s₂ i then
      if s₁ i = 0 then 0 else ece391StrcmpLoop s₁ s₂ fuel (i + 1)
    else (s₁ i).toNat - (s₂ i).toNat

def ece391Strcmp (s₁ s₂ : Nat → UInt8) : Int := ece391StrcmpLoop s₁ s₂ addressSpace 0

def ece391StrncmpLoop (s₁ s₂ : Nat → UInt8) : Nat → Nat → Int
  | 0, _ => 0
  | n + 1, i =>
    if s₁ i = s₂ i then
      if s₁ i = 0 ∨ n = 0 then 0 else ece391StrncmpLoop s₁ s₂ n (i + 1)
    else (s₁ i).toNat - (s₂ i).toNat

def ece391Strncmp (s₁ s₂ : Nat → UInt8) (n : Nat) : Int := ece391StrncmpLoop s₁ s₂ n 0

/-- A string as C stores it: no byte of the text is NUL, and the byte behind it is. -/
structure HoldsText (s : Nat → UInt8) (l : List UInt8) : Prop where
  chars : 0 ∉ l
  bytes : ∀ j, j ≤ l.length → s j = byteAt l j

variable {s₁ s₂ : Nat → UInt8} {l l' : List UInt8} {m : Mem} {a : Nat}

theorem byteAt_ne (h : 0 ∉ l) {j : Nat} (hj : j < l.length) : byteAt l j ≠ 0 := by
  rw [byteAt, List.getD_eq_getElem _ _ hj]
  exact fun h0 => h (h0 ▸ List.getElem_mem hj)

theorem byteAt_end (l : List UInt8) : byteAt l l.length = 0 :=
  List.getD_eq_default l 0 le_rfl

theorem byteAt_append_left (l' : List UInt8) {j : Nat} (hj : j < l.length) :
    byteAt (l ++ l') j = byteAt l j := by
  rw [byteAt, byteAt, List.getD_append _ _ _ _ hj]

theorem byteAt_append_right (l l' : List UInt8) (j : Nat) :
    byteAt (l ++ l') (l.length + j) = byteAt l' j := by
  rw [byteAt, byteAt, List.getD_append_right _ _ _ _ (Nat.le_add_right _ _),
    Nat.add_sub_cancel_left]

theorem byteAt_mem {j : Nat} (hj : j < l.length) : byteAt l j ∈ l := by
  rw [byteAt, List.getD_eq_getElem _ _ hj]
  exact List.getElem_mem hj

theorem place_byteAt (m : Mem) (a : Nat) {j : Nat} (hj : j < l.length) :
    place m a l (a + j) = byteAt l j := by
  rw [place_inside m a hj, byteAt, List.getD_eq_getElem _ _ hj]

theorem holdsText_byteAt (h : 0 ∉ l) : HoldsText (byteAt l) l := ⟨h, fun _ _ => rfl⟩

theorem HoldsText.ne_zero (h : HoldsText s₁ l) {j : Nat} (hj : j < l.length) : s₁ j ≠ 0 := by
  rw [h.bytes j (by omega)]
  exact byteAt_ne h.chars hj

theorem HoldsText.nul (h : HoldsText s₁ l) : s₁ l.length = 0 := by
  rw [h.bytes l.length le_rfl]
  exact byteAt_end l

theorem HoldsText.congr (h : HoldsText s₁ l) (hs : ∀ j, j ≤ l.length → s₂ j = s₁ j) :
    HoldsText s₂ l :=
  ⟨h.chars, fun j hj => (hs j hj).trans (h.bytes j hj)⟩

theorem HoldsText.strlen (h : HoldsText (fun j => m (a + j)) l) (hl : l.length ≤ addressSpace) :
    ece391Strlen m a = l.length :=
  strlenFrom_eq m a (Nat.zero_le _) hl (fun _ _ hj => h.ne_zero hj) (Or.inr h.nul)

theorem HoldsText.textAt (h : HoldsText (fun j => m (a + j)) l) (hl : l.length ≤ addressSpace) :
    textAt m a = l := by
  have hlen : Lib.strlen m a = l.length := h.strlen hl
  rw [Itoa.textAt, hlen]
  apply List.ext_getElem
  · exact readBytes_length _ _ _
  · intro j _ hj
    simp only [readBytes, List.getElem_map, List.getElem_range]
    rw [h.bytes j (by omega), byteAt, List.getD_eq_getElem _ _ hj]

theorem strcmpLoop_eq_zero (h₁ : HoldsText s₁ l) (h₂ : HoldsText s₂ l') {fuel i : Nat}
    (hi : i ≤ l.length) (hi' : i ≤ l'.length) (hfuel : l.length < i + fuel)
    (heq : ∀ j, j < i → byteAt l j = byteAt l' j) :
    ece391StrcmpLoop s₁ s₂ fuel i = 0 ↔ l = l' := by
  induction fuel generalizing i with
  | zero => omega
  | succ fuel ih =>
    rw [ece391StrcmpLoop, h₁.bytes i hi, h₂.bytes i hi']
    by_cases hsame : byteAt l i = byteAt l' i
    · rw [if_pos hsame]
      by_cases h0 : byteAt l i = 0
      · -- both strings end here
        have hlen : l.length = i := by
          by_contra hne
          exact byteAt_ne h₁.chars (by omega) h0
        have hlen' : l'.length = i := by
          by_contra hne
          exact byteAt_ne h₂.chars (by omega) (hsame ▸ h0)
        rw [if_pos h0]
        refine iff_of_true rfl (List.ext_getElem (hlen.trans hlen'.symm) fun j hj hj' => ?_)
        have hj := heq j (by omega)
        rwa [byteAt, byteAt, List.getD_eq_getElem _ _ (by omega),
          List.getD_eq_getElem _ _ hj'] at hj
      · have hlt : i < l.length := by
          by_contra hge
          exact h0 ((Nat.le_antisymm hi (by omega)) ▸ byteAt_end l)
        have hlt' : i < l'.length := by
          by_contra hge
          exact h0 (hsame.trans ((Nat.le_antisymm hi' (by omega)) ▸ byteAt_end l'))
        rw [if_neg h0]
        refine ih hlt hlt' (by omega) fun j hj => ?_
        obtain hj | rfl := Nat.lt_succ_iff_lt_or_eq.mp hj
        · exact heq j hj
        · exact hsame
    · rw [if_neg hsame]
      have hdiff : ((byteAt l i).toNat : Int) - (byteAt l' i).toNat ≠ 0 := by
        intro h
        exact hsame (UInt8.toNat_inj.mp (by omega))
      exact iff_of_false hdiff fun h => hsame (h ▸ rfl)

theorem strcmp_eq_zero (h₁ : HoldsText s₁ l) (h₂ : HoldsText s₂ l')
    (hl : l.length < addressSpace) : ece391Strcmp s₁ s₂ = 0 ↔ l = l' :=
  strcmpLoop_eq_zero h₁ h₂ (Nat.zero_le _) (Nat.zero_le _) (by omega) fun _ hj =>
    absurd hj (Nat.not_lt_zero _)

theorem strncmpLoop_eq_zero {n i : Nat} (h₂ : ∀ j, i ≤ j → j < i + n → s₂ j ≠ 0) :
    ece391StrncmpLoop s₁ s₂ n i = 0 ↔ ∀ j, i ≤ j → j < i + n → s₁ j = s₂ j := by
  induction n generalizing i with
  | zero => exact iff_of_true rfl fun j _ _ => by omega
  | succ n ih =>
    rw [ece391StrncmpLoop]
    by_cases hsame : s₁ i = s₂ i
    · have h0 : s₁ i ≠ 0 := hsame ▸ h₂ i le_rfl (by omega)
      have hrest := ih (i := i + 1) fun j hj hj' => h₂ j (by omega) (by omega)
      rw [if_pos hsame]
      by_cases hn : n = 0
      · subst hn
        rw [if_pos (Or.inr rfl)]
        refine iff_of_true rfl fun j hj hj' => ?_
        obtain rfl : j = i := by omega
        exact hsame
      · rw [if_neg (not_or.mpr ⟨h0, hn⟩), hrest]
        refine ⟨fun h j hj hj' => ?_, fun h j hj hj' => h j (by omega) (by omega)⟩
        obtain rfl | hj := Nat.eq_or_lt_of_le hj
        · exact hsame
        · exact h j hj (by omega)
    · have hdiff : ((s₁ i).toNat : Int) - (s₂ i).toNat ≠ 0 := by
        intro h
        exact hsame (UInt8.toNat_inj.mp (by omega))
      rw [if_neg hsame]
      exact iff_of_false hdiff fun h => hsame (h i le_rfl (by omega))

theorem strncmp_eq_zero (h₂ : HoldsText s₂ l) :
    ece391Strncmp s₁ s₂ l.length = 0 ↔ ∀ j, j < l.length → s₁ j = byteAt l j := by
  rw [ece391Strncmp, strncmpLoop_eq_zero fun j _ hj => h₂.ne_zero (by omega)]
  refine ⟨fun h j hj => ?_, fun h j _ hj => ?_⟩
  · rw [h j (Nat.zero_le j) (by omega), h₂.bytes j (by omega)]
  · rw [h j (by omega), h₂.bytes j (by omega)]

/-- The copy to a lower address leaves the string there, whatever the overlap. -/
theorem strcpyLoop_eq {fuel dst src : Nat} (hlt : dst < src) (hfuel : l.length < fuel)
    (h : HoldsText (fun j => m (src + j)) l) :
    ece391StrcpyLoop fuel dst src m = place m dst (l ++ [0]) := by
  induction fuel generalizing dst src l m with
  | zero => omega
  | succ fuel ih =>
    rw [ece391StrcpyLoop]
    have hfirst : m src = byteAt l 0 := h.bytes 0 (Nat.zero_le _)
    cases l with
    | nil =>
      have h0 : m src = 0 := hfirst
      rw [if_pos h0, h0, List.nil_append, place_cons, place_nil]
    | cons c l =>
      have hc : m src = c := hfirst
      have hne : m src ≠ 0 := h.ne_zero (j := 0) (by simp)
      have hrest : HoldsText (fun j => Function.update m dst c (src + 1 + j)) l := by
        refine ⟨fun h0 => h.chars (List.mem_cons_of_mem _ h0), fun j hj => ?_⟩
        have hj := h.bytes (j + 1) (by simpa using hj)
        rw [Function.update_of_ne (by omega), Nat.add_assoc, Nat.add_comm 1]
        simpa [byteAt] using hj
      rw [if_neg hne, hc, ih (by omega) (by simpa using hfuel) hrest, List.cons_append, place_cons]

theorem strcpy_eq {dst src : Nat} (hlt : dst < src) (hl : l.length < addressSpace)
    (h : HoldsText (fun j => m (src + j)) l) : ece391Strcpy dst src m = place m dst (l ++ [0]) :=
  strcpyLoop_eq hlt hl h

end RedstoneOS.UserStrings
