import RedstoneOS.CommandStrings

namespace RedstoneOS.CommandStores

open KernelState Filesystem Execute CommandStrings

inductive LocalArray
  | executableFile
  | commandArgs
  deriving DecidableEq

structure Store where
  array : LocalArray
  index : Nat
  deriving DecidableEq

def arraySize : Nat := 128

def nameByte (c : UInt8) : Bool := decide (c ≠ 0 ∧ c ≠ 32 ∧ c ≠ 10)

def argByte (c : UInt8) : Bool := decide (c ≠ 0 ∧ c ≠ 10)

/-- A copy loop of `execute` from index `i` on: the bytes it copies and where it stores them. -/
def copyLoop (more : UInt8 → Bool) : List UInt8 → Nat → List UInt8 × List Nat
  | [], _ => ([], [])
  | c :: rest, i =>
    if more c then (c :: (copyLoop more rest (i + 1)).1, i :: (copyLoop more rest (i + 1)).2)
    else ([], [])

def clearStores : List Store :=
  (List.range bufLen).flatMap fun k => [⟨.executableFile, k⟩, ⟨.commandArgs, k⟩]

/-- `executeChecks` with the stores that it makes into the two arrays. -/
def loggedChecks (sys : System) (command : Option (List UInt8)) (uninit : Nat → UInt8) :
    Option Program × List Store :=
  match command with
  | none => (none, [])
  | some command =>
    if byteAt command 0 = 0 ∨ byteAt command 0 = 32 then (none, clearStores)
    else
      let name := copyLoop nameByte command 0
      let nameLog := clearStores ++ name.2.map (Store.mk .executableFile) ++
        [⟨.executableFile, name.1.length⟩]
      if bufLen < name.1.length then (none, nameLog)
      else
        let args := copyLoop argByte (command.drop (name.1.length + 1)) 0
        let log := nameLog ++ args.2.map (Store.mk .commandArgs)
        if bufLen < args.1.length then (none, log)
        else match readDentryByName sys.mem sys.fs (byteAt name.1) with
          | none => (none, log)
          | some temp =>
            (if isElf sys temp.inodeNum uninit then some ⟨temp.inodeNum, args.1⟩ else none, log)

def storeLog (sys : System) (command : List UInt8) (uninit : Nat → UInt8) : List Store :=
  (loggedChecks sys (some command) uninit).2

def OverLong (command : List UInt8) : Prop :=
  bufLen < (commandName command).length ∨ bufLen < (commandArgs command).length

/-- No store is outside its array, and what is too long is refused. -/
structure StoresInside (sys : System) (command : List UInt8) (uninit : Nat → UInt8) : Prop where
  inside : ∀ s, s ∈ storeLog sys command uninit → s.index < arraySize
  refused : OverLong command → ∀ r k, execute sys (some command) uninit r k = .ret (-1) k

/-- `execute` turns away before it copies, or what it copies fits: the name with its NUL, and the
arguments unless the name is refused first. -/
def Fits (command : List UInt8) : Prop :=
  byteAt command 0 = 0 ∨ byteAt command 0 = 32 ∨
    (commandName command).length < arraySize ∧
      (bufLen < (commandName command).length ∨ (commandArgs command).length ≤ arraySize)

variable {sys : System} {command : List UInt8} {uninit : Nat → UInt8} {s : Store}

theorem copyLoop_value (more : UInt8 → Bool) (bytes : List UInt8) (i : Nat) :
    (copyLoop more bytes i).1 = bytes.takeWhile more := by
  induction bytes generalizing i with
  | nil => rfl
  | cons c rest ih =>
    rw [copyLoop]
    split
    next hc => rw [List.takeWhile_cons_of_pos hc, ih]
    next hc => rw [List.takeWhile_cons_of_neg hc]

theorem copyLoop_indexes (more : UInt8 → Bool) (bytes : List UInt8) (i : Nat) :
    (copyLoop more bytes i).2 = List.range' i (bytes.takeWhile more).length := by
  induction bytes generalizing i with
  | nil => rfl
  | cons c rest ih =>
    rw [copyLoop]
    split
    next hc => rw [List.takeWhile_cons_of_pos hc, List.length_cons, List.range'_succ, ih]
    next hc => rw [List.takeWhile_cons_of_neg hc, List.length_nil, List.range'_zero]

theorem copyName_value (command : List UInt8) :
    (copyLoop nameByte command 0).1 = commandName command := copyLoop_value nameByte command 0

theorem copyArgs_value (command : List UInt8) :
    (copyLoop argByte (command.drop ((commandName command).length + 1)) 0).1 =
      commandArgs command := copyLoop_value argByte _ 0

/-- The log does not change what the tests decide. -/
theorem loggedChecks_value (sys : System) (command : Option (List UInt8)) (uninit : Nat → UInt8) :
    (loggedChecks sys command uninit).1 = executeChecks sys command uninit := by
  cases command with
  | none => rfl
  | some command =>
    rw [loggedChecks, executeChecks]
    simp only [copyName_value, copyArgs_value]
    split
    · rfl
    · split
      · rfl
      · split
        · rfl
        · cases readDentryByName sys.mem sys.fs (byteAt (commandName command)) <;> rfl

theorem mem_clearStores : s ∈ clearStores ↔ s.index < bufLen := by
  obtain ⟨array, index⟩ := s
  cases array <;> simp [clearStores]

theorem mem_copyLoop (more : UInt8 → Bool) (bytes : List UInt8) (array : LocalArray) :
    s ∈ (copyLoop more bytes 0).2.map (Store.mk array) ↔
      s.array = array ∧ s.index < (bytes.takeWhile more).length := by
  rw [copyLoop_indexes, List.mem_map]
  obtain ⟨a, i⟩ := s
  simp only [List.mem_range'_1, Store.mk.injEq]
  constructor
  · rintro ⟨j, ⟨-, hj⟩, rfl, rfl⟩
    exact ⟨rfl, by omega⟩
  · rintro ⟨rfl, hi⟩
    exact ⟨i, ⟨Nat.zero_le i, by omega⟩, rfl, rfl⟩

theorem mem_storeLog (hfirst : ¬ (byteAt command 0 = 0 ∨ byteAt command 0 = 32)) :
    s ∈ storeLog sys command uninit ↔ s.index < bufLen ∨
      s.array = .executableFile ∧ s.index ≤ (commandName command).length ∨
      s.array = .commandArgs ∧ (commandName command).length ≤ bufLen ∧
        s.index < (commandArgs command).length := by
  have hname : s ∈ clearStores ++ (copyLoop nameByte command 0).2.map (Store.mk .executableFile) ++
      [⟨.executableFile, (commandName command).length⟩] ↔
      s.index < bufLen ∨ s.array = .executableFile ∧ s.index ≤ (commandName command).length := by
    rw [List.mem_append, List.mem_append, mem_clearStores, mem_copyLoop, List.mem_singleton]
    obtain ⟨array, index⟩ := s
    have hlen : (command.takeWhile nameByte).length = (commandName command).length := rfl
    simp only [hlen, Store.mk.injEq]
    cases array with
    | executableFile =>
      simp only [true_and]
      omega
    | commandArgs => simp
  have hargs : s ∈ (copyLoop argByte (command.drop ((commandName command).length + 1)) 0).2.map
      (Store.mk .commandArgs) ↔
      s.array = .commandArgs ∧ s.index < (commandArgs command).length := mem_copyLoop ..
  rw [storeLog, loggedChecks]
  simp only [copyName_value, copyArgs_value, if_neg hfirst]
  split
  next hlong =>
    simp only [hname, Nat.not_le.mpr hlong, false_and, and_false, or_false]
  next hlong =>
    have hlog : s ∈ clearStores ++ (copyLoop nameByte command 0).2.map (Store.mk .executableFile) ++
        [⟨.executableFile, (commandName command).length⟩] ++
        (copyLoop argByte (command.drop ((commandName command).length + 1)) 0).2.map
          (Store.mk .commandArgs) ↔ s.index < bufLen ∨
        s.array = .executableFile ∧ s.index ≤ (commandName command).length ∨
        s.array = .commandArgs ∧ (commandName command).length ≤ bufLen ∧
          s.index < (commandArgs command).length := by
      rw [List.mem_append, hname, hargs, or_assoc, and_iff_right (Nat.le_of_not_lt hlong)]
    split
    · exact hlog
    · cases readDentryByName sys.mem sys.fs (byteAt (commandName command)) with
      | none => exact hlog
      | some temp => exact hlog

theorem overLong_refused (h : OverLong command) (r : Regs) (k : Kernel) :
    execute sys (some command) uninit r k = .ret (-1) k := by
  have hnone : executeChecks sys (some command) uninit = none := by
    rw [executeChecks]
    split
    · rfl
    · split
      · rfl
      next hname => rw [if_pos (h.resolve_left hname)]
  rw [execute, hnone]

/-- The loops have no bound of their own: all stores are inside the arrays exactly for the
commands whose parts fit. -/
theorem storesInside_iff (sys : System) (command : List UInt8) (uninit : Nat → UInt8) :
    StoresInside sys command uninit ↔ Fits command := by
  by_cases hfirst : byteAt command 0 = 0 ∨ byteAt command 0 = 32
  · refine iff_of_true ⟨fun s hs => ?_, overLong_refused⟩ (by rw [Fits, ← or_assoc]; exact Or.inl hfirst)
    rw [storeLog, loggedChecks, if_pos hfirst] at hs
    exact Nat.lt_trans (mem_clearStores.mp hs) (by decide)
  · constructor
    · intro h
      have hname := h.inside ⟨.executableFile, (commandName command).length⟩
        ((mem_storeLog hfirst).mpr (Or.inr (Or.inl ⟨rfl, le_rfl⟩)))
      refine Or.inr (Or.inr ⟨hname, ?_⟩)
      by_contra hargs
      simp only [not_or, Nat.not_lt, Nat.not_le] at hargs
      have hlast := h.inside ⟨.commandArgs, arraySize⟩
        ((mem_storeLog hfirst).mpr (Or.inr (Or.inr ⟨rfl, hargs.1, hargs.2⟩)))
      exact Nat.lt_irrefl _ hlast
    · intro h
      obtain ⟨hname, hargs⟩ := (h.resolve_left (not_or.mp hfirst).1).resolve_left (not_or.mp hfirst).2
      refine ⟨fun s hs => ?_, overLong_refused⟩
      simp only [arraySize, bufLen] at hname hargs ⊢
      obtain hs | ⟨-, hs⟩ | ⟨-, hshort, hs⟩ := (mem_storeLog hfirst).mp hs
      · simp only [bufLen] at hs
        omega
      · omega
      · simp only [bufLen] at hshort
        omega

/-- The NUL behind a name of 128 bytes is stored behind the array. -/
theorem name_of_128_bytes : ¬ StoresInside ⟨fun _ => 0, 0, [], 0⟩ (List.replicate 128 97) (fun _ => 0) := by
  intro h
  have hlen : (commandName (List.replicate 128 97)).length = 128 := by decide +kernel
  have hstore := h.inside ⟨.executableFile, 128⟩
    ((mem_storeLog (by decide)).mpr (Or.inr (Or.inl ⟨rfl, hlen.ge⟩)))
  exact Nat.lt_irrefl _ hstore

end RedstoneOS.CommandStores
