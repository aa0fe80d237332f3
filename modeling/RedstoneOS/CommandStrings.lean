import RedstoneOS.Execute
import Mathlib.Data.List.GetD
import Mathlib.Data.List.TakeWhile

namespace RedstoneOS.CommandStrings

open KernelState Filesystem Execute

/-- What `execute` has parsed when it decides: nothing if it rejects the first byte, only the name
if that is too long, else the name and the arguments. -/
def parsed (command : List UInt8) : Option (List UInt8 × Option (List UInt8)) :=
  if byteAt command 0 = 0 ∨ byteAt command 0 = 32 then none
  else some (commandName command,
    if bufLen < (commandName command).length then none else some (commandArgs command))

def SameString (c c' : List UInt8) : Prop :=
  ∃ n, (∀ j, j < n → byteAt c j ≠ 0) ∧ byteAt c n = 0 ∧ ∀ j, j ≤ n → byteAt c j = byteAt c' j

structure SameCall (c c' : List UInt8) : Prop where
  parse : parsed c = parsed c'
  outcome : ∀ sys uninit r k, execute sys (some c) uninit r k = execute sys (some c') uninit r k

/-- Nothing behind the NUL of the command matters. -/
def StringOnly (command : List UInt8) : Prop := ∀ c', SameString command c' → SameCall command c'

variable {c c' : List UInt8} {p : UInt8 → Bool} {n k : Nat}

theorem executeChecks_parsed (sys : System) (c : List UInt8) (uninit : Nat → UInt8) :
    executeChecks sys (some c) uninit = (parsed c).bind fun r => r.2.bind fun args =>
      if bufLen < args.length then none
      else (readDentryByName sys.mem sys.fs (byteAt r.1)).bind fun temp =>
        if isElf sys temp.inodeNum uninit then some ⟨temp.inodeNum, args⟩ else none := by
  rw [executeChecks, parsed]
  split
  · rfl
  · split
    · rfl
    · split
      next hargs => simp only [Option.bind_some, if_pos hargs]
      next hargs =>
        simp only [Option.bind_some, if_neg hargs]
        cases readDentryByName sys.mem sys.fs (byteAt (commandName c)) <;> rfl

/-- All that follows the parsing depends on what has been parsed. -/
theorem sameCall_of_parsed (h : parsed c = parsed c') : SameCall c c' := by
  refine ⟨h, fun sys uninit r k => ?_⟩
  rw [execute, execute, executeChecks_parsed, executeChecks_parsed, h]

theorem byteAt_drop (c : List UInt8) (k j : Nat) : byteAt (c.drop k) j = byteAt c (k + j) := by
  simp [byteAt, List.getD_eq_getElem?_getD]

theorem takeWhile_append_stop {α : Type*} {p : α → Bool} {l rest : List α} {a : α}
    (hl : ∀ c, c ∈ l → p c = true) (ha : p a = false) : (l ++ a :: rest).takeWhile p = l := by
  rw [List.takeWhile_append_of_pos hl, List.takeWhile_cons_of_neg (by simp [ha]), List.append_nil]

theorem takeWhile_congr (hp : p 0 = false) (h0 : byteAt c n = 0)
    (h : ∀ j, j ≤ n → byteAt c j = byteAt c' j) : c.takeWhile p = c'.takeWhile p := by
  induction n generalizing c c' with
  | zero =>
    have hstop : ∀ l : List UInt8, byteAt l 0 = 0 → l.takeWhile p = [] := by
      intro l hl
      cases l with
      | nil => rfl
      | cons a l =>
        obtain rfl : a = 0 := hl
        exact List.takeWhile_cons_of_neg (by simp [hp])
    rw [hstop c h0, hstop c' ((h 0 le_rfl).symm.trans h0)]
  | succ n ih =>
    have hfirst := h 0 (Nat.zero_le _)
    cases c with
    | nil =>
      cases c' with
      | nil => rfl
      | cons b c' =>
        obtain rfl : 0 = b := hfirst
        exact (List.takeWhile_cons_of_neg (by simp [hp])).symm
    | cons a c =>
      cases c' with
      | nil =>
        obtain rfl : a = 0 := hfirst
        exact List.takeWhile_cons_of_neg (by simp [hp])
      | cons b c' =>
        obtain rfl : a = b := hfirst
        have hrest : c.takeWhile p = c'.takeWhile p :=
          ih h0 fun j hj => h (j + 1) (Nat.succ_le_succ hj)
        rw [List.takeWhile_cons, List.takeWhile_cons, hrest]

theorem byteAt_takeWhile (hk : k < (c.takeWhile p).length) : p (byteAt c k) = true := by
  have hlt := Nat.lt_of_lt_of_le hk (List.takeWhile_prefix p).length_le
  have hget : byteAt c k = (c.takeWhile p)[k] := by
    rw [byteAt, List.getD_eq_getElem _ _ hlt, (List.takeWhile_prefix p).getElem hk]
  rw [hget]
  exact List.mem_takeWhile_imp (List.getElem_mem hk)

theorem name_le (h0 : byteAt c n = 0) : (commandName c).length ≤ n := by
  by_contra hlt
  have htest := byteAt_takeWhile (Nat.lt_of_not_le hlt)
  rw [h0] at htest
  exact absurd htest (by decide)

theorem commandArgs_congr (hsep : byteAt c (commandName c).length ≠ 0)
    (hname : commandName c = commandName c') (h0 : byteAt c n = 0)
    (h : ∀ j, j ≤ n → byteAt c j = byteAt c' j) : commandArgs c = commandArgs c' := by
  have hlt : (commandName c).length < n := by
    refine Nat.lt_of_le_of_ne (name_le h0) ?_
    rintro rfl
    exact hsep h0
  rw [commandArgs, commandArgs, ← hname]
  refine takeWhile_congr (n := n - ((commandName c).length + 1)) rfl ?_ fun j hj => ?_
  · rw [byteAt_drop, ← h0]
    congr 1
    omega
  · rw [byteAt_drop, byteAt_drop]
    exact h _ (by omega)

theorem parsed_congr (hsame : SameString c c')
    (h : byteAt c 0 = 0 ∨ byteAt c 0 = 32 ∨ bufLen < (commandName c).length ∨
      byteAt c (commandName c).length ≠ 0) : parsed c = parsed c' := by
  obtain ⟨n, -, h0, hbytes⟩ := hsame
  have hname : commandName c = commandName c' := takeWhile_congr rfl h0 hbytes
  rw [parsed, parsed, ← hbytes 0 (Nat.zero_le n), ← hname]
  obtain h | h | h | h := h
  · rw [if_pos (Or.inl h), if_pos (Or.inl h)]
  · rw [if_pos (Or.inr h), if_pos (Or.inr h)]
  · rw [if_pos h, if_pos h]
  · rw [commandArgs_congr h hname h0 hbytes]

def withTail (c tail : List UInt8) : List UInt8 := commandName c ++ 0 :: tail

theorem name_withTail (c tail : List UInt8) : commandName (withTail c tail) = commandName c := by
  have htest : ∀ a, a ∈ commandName c → decide (a ≠ 0 ∧ a ≠ 32 ∧ a ≠ 10) = true :=
    fun a ha => List.mem_takeWhile_imp (l := c) ha
  exact takeWhile_append_stop htest rfl

theorem args_withTail (c tail : List UInt8) : commandArgs (withTail c tail) =
    tail.takeWhile fun a => decide (a ≠ 0 ∧ a ≠ 10) := by
  rw [commandArgs, name_withTail, withTail, List.append_cons, List.drop_left' (by simp)]

theorem sameString_withTail (hend : byteAt c (commandName c).length = 0) (tail : List UInt8) :
    SameString c (withTail c tail) := by
  have hsplit : commandName c ++ c.dropWhile (fun a => decide (a ≠ 0 ∧ a ≠ 32 ∧ a ≠ 10)) = c :=
    List.takeWhile_append_dropWhile
  refine ⟨(commandName c).length, fun j hj => ?_, hend, fun j hj => ?_⟩
  · have htest := byteAt_takeWhile hj
    exact (of_decide_eq_true htest).1
  · obtain hlt | rfl := Nat.lt_or_eq_of_le hj
    · rw [withTail, byteAt, byteAt, List.getD_append _ _ _ _ hlt]
      conv_lhs => rw [← hsplit]
      exact List.getD_append _ _ _ _ hlt
    · rw [hend, withTail, byteAt, List.getD_append_right _ _ _ _ le_rfl, Nat.sub_self]
      rfl

/-- Which commands `execute` treats as strings: all but those whose name, of at most 32 bytes, is
ended by the NUL. There the arguments are what lies behind it. -/
theorem stringOnly_iff (c : List UInt8) : StringOnly c ↔
    byteAt c 0 = 0 ∨ byteAt c 0 = 32 ∨ bufLen < (commandName c).length ∨
      byteAt c (commandName c).length ≠ 0 := by
  constructor
  · intro hstring
    by_contra hcase
    simp only [not_or, not_not, Nat.not_lt] at hcase
    obtain ⟨h0, hspace, hlen, hend⟩ := hcase
    have hargs : ∀ tail, commandArgs c = commandArgs (withTail c tail) := by
      intro tail
      have hsame := sameString_withTail hend tail
      have hparse := (hstring _ hsame).parse
      obtain ⟨n, -, -, hbytes⟩ := hsame
      have hfirst : ¬ (byteAt c 0 = 0 ∨ byteAt c 0 = 32) := not_or.mpr ⟨h0, hspace⟩
      rw [parsed, parsed, ← hbytes 0 (Nat.zero_le n), name_withTail, if_neg hfirst, if_neg hfirst,
        if_neg (Nat.not_lt.mpr hlen), if_neg (Nat.not_lt.mpr hlen)] at hparse
      exact Option.some.inj (Prod.mk.inj (Option.some.inj hparse)).2
    have hnil := (hargs []).trans (args_withTail c [])
    have hone := (hargs [65]).trans (args_withTail c [65])
    exact absurd (hnil.symm.trans hone) (by decide)
  · exact fun h c' hsame => sameCall_of_parsed (parsed_congr hsame h)

/-- Behind the NUL of "shell" there may be an A, which becomes the argument. -/
theorem shell_takes_what_follows : ¬ StringOnly [115, 104, 101, 108, 108, 0] := by
  intro hstring
  have hsame : SameString [115, 104, 101, 108, 108, 0] [115, 104, 101, 108, 108, 0, 65] :=
    ⟨5, by decide, by decide, by decide⟩
  exact absurd (hstring _ hsame).parse (by decide)

end RedstoneOS.CommandStrings
