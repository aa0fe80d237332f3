import RedstoneOS.Library.Ownership
import RedstoneOS.MallocSearch
import RedstoneOS.GameTurns

namespace RedstoneOS.GameSession

open Malloc MallocSearch HeapBlocks Library.Extents Library.Ownership Library.Runs
open Game2048 BoardMoves GameTurns

def null : Nat := 0

def sizeofGame : Nat := 16

def sizeofInt : Nat := 4

structure GameStruct where
  rows : Nat
  cols : Nat
  cells : Nat
  score : Int

/-- The heap's table and what its blocks hold, `index_random`, and the blocks taken, touched and
freed so far. -/
structure World where
  table : Table
  structs : Nat → GameStruct
  arrays : Nat → Nat → Int
  indexRandom : Nat
  trace : List (Access Nat)

def callMalloc (size : Nat) (w : World) : Option (Nat × World) :=
  match malloc size w.table with
  | .hang => none
  | .null => some (null, w)
  | .pointer p table => some (p, { w with table := table, trace := w.trace ++ [.take p] })

def callFree (p : Nat) (w : World) : World :=
  { w with table := free p w.table, trace := w.trace ++ [.release p] }

def World.store (w : World) (p : Nat) (f : GameStruct → GameStruct) : World :=
  { w with structs := Function.update w.structs p (f (w.structs p)), trace := w.trace ++ [.touch p] }

def fillCells (rows cols p : Nat) (w : World) : World :=
  { w with
    arrays := Function.update w.arrays p (newGame rows cols (w.arrays p)).cells
    trace := w.trace ++ [.touch p] }

/-- `make_game` once it has the struct. If the second `malloc` returns `NULL`, the struct stays
allocated. -/
def makeCells (rows cols newgame : Nat) (w : World) : Option (Nat × World) :=
  let w := w.store newgame fun s => { s with rows := rows, cols := cols }
  match callMalloc (rows * cols * sizeofInt) w with
  | none => none
  | some (cells, w) =>
    let w := w.store newgame fun s => { s with cells := cells }
    if cells = null then some (null, w)
    else
      let w := fillCells rows cols cells w
      some (newgame, w.store newgame fun s => { s with score := 0 })

def makeGame (rows cols : Nat) (w : World) : Option (Nat × World) :=
  match callMalloc sizeofGame w with
  | none => none
  | some (newgame, w) =>
    if newgame = null then some (null, w) else makeCells rows cols newgame w

def destroyGame (curGame : Nat) (w : World) : World :=
  let cells := (w.structs curGame).cells
  let w := { w with trace := w.trace ++ [.touch curGame] }
  callFree curGame (callFree cells w)

def World.play (w : World) (curGame : Nat) : Play :=
  let s := w.structs curGame
  ⟨w.indexRandom, ⟨s.rows, s.cols, s.score, w.arrays s.cells⟩, 0⟩

def World.keep (w : World) (curGame : Nat) (p : Play) : World :=
  let cells := (w.structs curGame).cells
  { w with
    structs := Function.update w.structs curGame { w.structs curGame with score := p.game.score }
    arrays := Function.update w.arrays cells p.game.cells
    indexRandom := p.indexRandom
    trace := w.trace ++ [.touch curGame, .touch cells] }

def randNewTile (curGame : Nat) (w : World) : Option World :=
  (GameTurns.randNewTile (w.play curGame)).map (w.keep curGame)

/-- The key q frees the game at once; after any other key the game is freed if no move is left. -/
def processTurn (inputChar : UInt8) (curGame : Nat) (w : World) : Option (Int × World) :=
  if inputChar = quitKey then some (0, destroyGame curGame w)
  else
    (GameTurns.processTurn inputChar (w.play curGame)).map fun (v, p) =>
      let w := w.keep curGame p
      (v, if v = 0 then destroyGame curGame w else w)

/-- A session that does not return from a call, that got a null pointer for the game, whose game
has ended, or which waits for the next key. -/
inductive Outcome
  | hang
  | badPointer (w : World)
  | ended (w : World)
  | playing (w : World)

def turns (curGame : Nat) : List UInt8 → World → Outcome
  | [], w => .playing w
  | c :: inputs, w =>
    match processTurn c curGame w with
    | none => .hang
    | some (v, w) => if v = 1 then turns curGame inputs w else .ended w

def start2048 (rows cols : Nat) (inputs : List UInt8) (w : World) : Outcome :=
  match makeGame rows cols w with
  | none => .hang
  | some (curGame, w) =>
    if curGame = null then .badPointer w
    else
      match randNewTile curGame w with
      | none => .hang
      | some w => turns curGame inputs w

/-- The table is as before, and every block has been freed once and not touched afterwards. -/
structure Clean (table : Table) (w : World) : Prop where
  table : w.table = table
  once : ∀ b, .take b ∈ w.trace ∨ .release b ∈ w.trace →
    w.trace.count (.take b) = 1 ∧ w.trace.count (.release b) = 1
  untouched : ∀ b pre post, w.trace = pre ++ .release b :: post → .touch b ∉ post

def Outcome.atEnd : Outcome → Option World
  | .badPointer w => some w
  | .ended w => some w
  | _ => none

/-- If the session comes to its end, it has left nothing behind. -/
def LeaksNothing (rows cols : Nat) (inputs : List UInt8) (w : World) : Prop :=
  ∀ w', (start2048 rows cols inputs w).atEnd = some w' → Clean w.table w'

def OneVacant (table : Table) : Prop := ∃! f, f < kb4 ∧ Vacant (extents table) f

def onHeap (h : Heap) (structs : Nat → GameStruct) (arrays : Nat → Nat → Int)
    (indexRandom : Nat) : World :=
  ⟨h.table, structs, arrays, indexRandom, []⟩

variable {table : Table} {f f' size rows cols curGame : Nat} {w w' : World} {p : Play} {v : Int}
  {c : UInt8} {inputs : List UInt8}

def address (f : Nat) : Nat := dynamicAddrStart + f * kb1

theorem address_ne_null (f : Nat) : address f ≠ null := by
  simp only [address, dynamicAddrStart, null]
  omega

theorem address_ne (h : f ≠ f') : address f ≠ address f' := by
  simp only [address, kb1]
  omega

theorem free_address (hf : f < kb4) (table : Table) :
    free (address f) table = Function.update table f 0 := by
  rw [free, address, cellIndex_ptr hf]

theorem malloc_one (hsep : Separated kb4 (extents table))
    (hf : FirstVacant kb4 (extents table) f) (hs : size < kb1) :
    malloc size table = .pointer (address f) (Function.update table f 1) := by
  have hcount : kbSize size = 1 := by rw [kbSize, Nat.div_eq_of_lt hs]; rfl
  have hroom : checkSpace table f (1 : UInt8).toNat = true := by
    refine checkSpace_iff.mpr fun j hj => ?_
    obtain rfl : j = 0 := Nat.lt_one_iff.mp hj
    exact hf.2.1.eq_zero
  rw [malloc_vacant hsep hf, hcount, if_pos hroom, address]

def World.taken (w : World) (f : Nat) : World :=
  { w with table := Function.update w.table f 1, trace := w.trace ++ [.take (address f)] }

theorem callMalloc_one (hsep : Separated kb4 (extents w.table))
    (hf : FirstVacant kb4 (extents w.table) f) (hs : size < kb1) :
    callMalloc size w = some (address f, w.taken f) := by
  rw [callMalloc, malloc_one hsep hf hs]
  rfl

theorem callMalloc_full (hsep : Separated kb4 (extents w.table))
    (hfull : ∀ k, k < kb4 → ¬ Vacant (extents w.table) k) (size : Nat) :
    callMalloc size w = some (null, w) := by
  rw [callMalloc, malloc_full hsep hfull]

/-- The game has its two blocks, in cells that were free in `table`. -/
structure Playing (table : Table) (f f' : Nat) (w : World) : Prop where
  struct : f < kb4 ∧ table f = 0
  array : f' < kb4 ∧ table f' = 0
  ne : f ≠ f'
  table : w.table = Function.update (Function.update table f 1) f' 1
  cells : (w.structs (address f)).cells = address f'
  held : holdAll [] w.trace = some [address f', address f]
  taken : ∀ b, w.trace.count (.take b) = [address f', address f].count b

theorem Playing.touch (h : Playing table f f' w) {b : Nat} (hb : b = address f ∨ b = address f') :
    Playing table f f' { w with trace := w.trace ++ [.touch b] } := by
  refine ⟨h.struct, h.array, h.ne, h.table, h.cells, ?_, fun b' => ?_⟩
  · refine holdAll_append.mpr ⟨_, h.held, holdAll_cons.mpr ⟨_, hold_touch.mpr ⟨?_, rfl⟩, rfl⟩⟩
    obtain rfl | rfl := hb
    · exact List.mem_cons_of_mem _ List.mem_cons_self
    · exact List.mem_cons_self
  · rw [List.count_append, h.taken, List.count_singleton, if_neg (by simp), Nat.add_zero]

theorem Playing.keep (h : Playing table f f' w) (p : Play) :
    Playing table f f' (w.keep (address f) p) := by
  have htouch := (h.touch (Or.inl rfl)).touch (Or.inr rfl)
  rw [List.append_assoc] at htouch
  refine ⟨h.struct, h.array, h.ne, h.table, ?_, ?_, ?_⟩
  · simp only [World.keep, Function.update_self]
    exact h.cells
  · rw [World.keep, h.cells]
    exact htouch.held
  · rw [World.keep, h.cells]
    exact htouch.taken

theorem Playing.destroy_table (h : Playing table f f' w) :
    (destroyGame (address f) w).table = table := by
  have hfree : (destroyGame (address f) w).table =
      free (address f) (free (address f') w.table) := by
    simp only [destroyGame, callFree, h.cells]
  have harray : Function.update table f' 0 = table :=
    Function.update_eq_self_iff.mpr h.array.2.symm
  have hstruct : Function.update table f 0 = table :=
    Function.update_eq_self_iff.mpr h.struct.2.symm
  rw [hfree, free_address h.array.1, free_address h.struct.1, h.table, Function.update_idem,
    Function.update_comm h.ne, harray, Function.update_idem, hstruct]

theorem Playing.destroy (h : Playing table f f' w) : Clean table (destroyGame (address f) w) := by
  have htrace : (destroyGame (address f) w).trace =
      w.trace ++ [.touch (address f), .release (address f'), .release (address f)] := by
    simp only [destroyGame, callFree, h.cells, List.append_assoc, List.cons_append,
      List.nil_append]
  have hne := address_ne h.ne
  have hheld : holdAll [] (destroyGame (address f) w).trace = some [] := by
    rw [htrace]
    refine holdAll_append.mpr ⟨_, h.held, ?_⟩
    simp [holdAll, hold, hne]
  have htake : ∀ b, (destroyGame (address f) w).trace.count (.take b) =
      [address f', address f].count b := by
    intro b
    rw [htrace, List.count_append, h.taken]
    simp
  have hle : ∀ b, (destroyGame (address f) w).trace.count (.take b) ≤ 1 := by
    intro b
    rw [htake]
    exact List.nodup_iff_count.mp (by simp [Ne.symm hne]) b
  refine ⟨h.destroy_table, fun b hb => released_once hheld (hle b) hb, fun b pre post hsplit => ?_⟩
  have hone := hle b
  rw [hsplit] at hheld hone
  exact untouched_after hheld hone

theorem processTurn_value {p' : Play} (h : GameTurns.processTurn c p = some (v, p')) :
    v = 0 ∨ v = 1 := by
  unfold GameTurns.processTurn at h
  split at h
  · simp only [Option.some.injEq, Prod.mk.injEq] at h
    exact Or.inl h.1.symm
  · obtain ⟨q, -, hq⟩ := Option.map_eq_some_iff.mp h
    simp only [Prod.mk.injEq] at hq
    rw [← hq.1]
    split
    · exact Or.inl rfl
    · exact Or.inr rfl

theorem processTurn_playing (h : Playing table f f' w)
    (hturn : processTurn c (address f) w = some (v, w')) :
    v = 1 ∧ Playing table f f' w' ∨ v ≠ 1 ∧ Clean table w' := by
  unfold processTurn at hturn
  split at hturn
  · simp only [Option.some.injEq, Prod.mk.injEq] at hturn
    obtain ⟨rfl, rfl⟩ := hturn
    exact Or.inr ⟨by decide, h.destroy⟩
  · obtain ⟨⟨v', p⟩, hp, he⟩ := Option.map_eq_some_iff.mp hturn
    simp only [Prod.mk.injEq] at he
    obtain ⟨rfl, rfl⟩ := he
    obtain rfl | rfl := processTurn_value hp
    · exact Or.inr ⟨by decide, (h.keep p).destroy⟩
    · exact Or.inl ⟨rfl, h.keep p⟩

theorem turns_clean (h : Playing table f f' w)
    (hend : (turns (address f) inputs w).atEnd = some w') : Clean table w' := by
  induction inputs generalizing w with
  | nil => simp [turns, Outcome.atEnd] at hend
  | cons c inputs ih =>
    rw [turns] at hend
    cases hturn : processTurn c (address f) w with
    | none => simp [hturn, Outcome.atEnd] at hend
    | some r =>
      obtain ⟨v, q⟩ := r
      simp only [hturn] at hend
      obtain ⟨rfl, hq⟩ | ⟨hv, hq⟩ := processTurn_playing h hturn
      · rw [if_pos rfl] at hend
        exact ih hq hend
      · rw [if_neg hv] at hend
        obtain rfl := Option.some.inj hend
        exact hq

theorem oneVacant_iff (hf : FirstVacant kb4 (extents table) f) :
    OneVacant table ↔ ∀ k, k < kb4 → ¬ Vacant (extents (Function.update table f 1)) k := by
  have hone : ∀ k, Vacant (extents (Function.update table f 1)) k ↔
      Vacant (extents table) k ∧ k ≠ f := by
    intro k
    rw [extents_update, vacant_update hf.2.1.eq_zero]
    refine and_congr_right fun _ => ?_
    rw [UInt8.toNat_one]
    omega
  constructor
  · rintro ⟨g, -, hunique⟩ k hk hv
    obtain ⟨hv, hne⟩ := (hone k).mp hv
    exact hne ((hunique k ⟨hk, hv⟩).trans (hunique f ⟨hf.1, hf.2.1⟩).symm)
  · intro hfull
    refine ⟨f, ⟨hf.1, hf.2.1⟩, fun k hk => ?_⟩
    by_contra hne
    exact hfull k hk.1 ((hone k).mpr ⟨hk.2, hne⟩)

theorem separated_take (hsep : Separated kb4 (extents table))
    (hf : FirstVacant kb4 (extents table) f) :
    Separated kb4 (extents (Function.update table f 1)) := by
  rw [extents_update]
  refine hsep.place (fun j hj _ _ => hf.2.1 j (Nat.le_of_lt hj)) fun j hj => ?_
  obtain rfl : j = 0 := Nat.lt_one_iff.mp hj
  exact hf.2.1.eq_zero

theorem makeCells_full (hsep : Separated kb4 (extents w.table))
    (hfull : ∀ k, k < kb4 → ¬ Vacant (extents w.table) k) (rows cols newgame : Nat) :
    ∃ w', makeCells rows cols newgame w = some (null, w') ∧ w'.table = w.table := by
  have hcall := callMalloc_full
    (w := w.store newgame fun s => { s with rows := rows, cols := cols }) hsep hfull
    (rows * cols * sizeofInt)
  simp only [makeCells, hcall, if_pos]
  exact ⟨_, rfl, rfl⟩

theorem makeCells_one (hsep : Separated kb4 (extents (Function.update w.table f 1)))
    (hf : FirstVacant kb4 (extents w.table) f)
    (hf' : FirstVacant kb4 (extents (Function.update w.table f 1)) f') (htrace : w.trace = [])
    (hsize : rows * cols * sizeofInt < kb1) :
    ∃ w', makeCells rows cols (address f) (w.taken f) = some (address f, w') ∧
      Playing w.table f f' w' := by
  have hcall : callMalloc (rows * cols * sizeofInt)
      ((w.taken f).store (address f) fun s => { s with rows := rows, cols := cols }) =
        some (address f', _) :=
    callMalloc_one hsep hf' hsize
  have hzero := eq_zero_of_vacant hf'.2.1
  have hne : f ≠ f' := by
    rintro rfl
    rw [Function.update_self] at hzero
    exact absurd hzero (by decide)
  rw [Function.update_of_ne hne.symm] at hzero
  have haddr := address_ne hne
  simp only [makeCells, hcall, if_neg (address_ne_null f')]
  refine ⟨_, rfl, ⟨hf.1, eq_zero_of_vacant hf.2.1⟩, ⟨hf'.1, hzero⟩, hne, rfl, ?_, ?_, fun b => ?_⟩
  · simp [World.store, fillCells]
  · simp [World.store, fillCells, World.taken, htrace, holdAll, hold]
  · simp only [World.store, fillCells, World.taken, htrace, List.nil_append, List.cons_append]
    simp [List.count_cons, Nat.add_comm]

theorem makeGame_cases (hsep : Separated kb4 (extents w.table)) (htrace : w.trace = [])
    (hsize : rows * cols * sizeofInt < kb1) :
    (¬ OneVacant w.table ∧ makeGame rows cols w = some (null, w)) ∨
    (OneVacant w.table ∧ ∃ f w', makeGame rows cols w = some (null, w') ∧
      w.table f = 0 ∧ w'.table f = 1) ∨
    (¬ OneVacant w.table ∧ ∃ f f' w', makeGame rows cols w = some (address f, w') ∧
      Playing w.table f f' w') := by
  obtain hfull | ⟨f, hf⟩ := full_or_firstVacant hsep
  · refine Or.inl ⟨fun ⟨f, hf, _⟩ => hfull f hf.1 hf.2, ?_⟩
    rw [makeGame, callMalloc_full hsep hfull]
    exact if_pos rfl
  · have hmake : makeGame rows cols w = makeCells rows cols (address f) (w.taken f) := by
      rw [makeGame, callMalloc_one hsep hf (by decide)]
      exact if_neg (address_ne_null f)
    have hsep' := separated_take hsep hf
    rw [hmake]
    obtain hfull | ⟨f', hf'⟩ := full_or_firstVacant hsep'
    · obtain ⟨w', hcells, htable⟩ := makeCells_full (w := w.taken f) hsep' hfull rows cols (address f)
      refine Or.inr (Or.inl ⟨(oneVacant_iff hf).mpr hfull, f, w', hcells,
        eq_zero_of_vacant hf.2.1, ?_⟩)
      rw [htable]
      exact Function.update_self f 1 w.table
    · obtain ⟨w', hcells, hplaying⟩ := makeCells_one hsep' hf hf' htrace hsize
      refine Or.inr (Or.inr ⟨fun hone => ?_, f, f', w', hcells, hplaying⟩)
      exact (oneVacant_iff hf).mp hone f' hf'.1 hf'.2.1

/-- Wherever the session ends, it leaves nothing behind, but for one kind of heap: with a single
vacant cell, `make_game` gives up and keeps the struct that it has taken. -/
theorem leaks_nothing_iff (table : Table) (es : List Event) (structs : Nat → GameStruct)
    (arrays : Nat → Nat → Int) (indexRandom : Nat) (hrows : 1 ≤ rows ∧ rows ≤ 9)
    (hcols : 1 ≤ cols ∧ cols ≤ 9) (inputs : List UInt8) :
    LeaksNothing rows cols inputs (onHeap (run step (boot table) es) structs arrays indexRandom) ↔
      ¬ OneVacant (run step (boot table) es).table := by
  have hsep := (recorded_run table es).separated
  have hsize : rows * cols * sizeofInt < kb1 := by
    have := Nat.mul_le_mul hrows.2 hcols.2
    simp only [sizeofInt, kb1]
    omega
  generalize hw : onHeap (run step (boot table) es) structs arrays indexRandom = w
  have htable : (run step (boot table) es).table = w.table := by rw [← hw]; rfl
  have htrace : w.trace = [] := by rw [← hw]; rfl
  rw [htable] at hsep ⊢
  obtain ⟨hone, hmake⟩ | ⟨hone, f, w₁, hmake, hzero, htaken⟩ | ⟨hone, f, f', w₁, hmake, hplaying⟩ :=
    makeGame_cases hsep htrace hsize
  · refine iff_of_true (fun w' hend => ?_) hone
    simp only [start2048, hmake, if_pos] at hend
    obtain rfl := Option.some.inj hend
    refine ⟨rfl, fun b hb => ?_, fun b pre post hsplit => ?_⟩
    · rw [htrace] at hb
      simp at hb
    · rw [htrace] at hsplit
      simp at hsplit
  · refine iff_of_false (fun hleaks => ?_) (not_not.mpr hone)
    have hclean := hleaks w₁ (by simp only [start2048, hmake, if_pos, Outcome.atEnd])
    rw [hclean.table, hzero] at htaken
    exact absurd htaken (by decide)
  · refine iff_of_true (fun w' hend => ?_) hone
    simp only [start2048, hmake, if_neg (address_ne_null f), randNewTile] at hend
    cases htile : GameTurns.randNewTile (w₁.play (address f)) with
    | none => simp [htile, Outcome.atEnd] at hend
    | some p =>
      simp only [htile, Option.map_some] at hend
      exact turns_clean (hplaying.keep p) hend

/-- A session that is quit after one move, next to a block of 5KB. -/
theorem leaks_nothing_quit :
    (start2048 4 4 [100, 113] (onHeap (run step (boot fun _ => 0) [.malloc 5000])
      (fun _ => ⟨0, 0, 0, 0⟩) (fun _ _ => 0) 0)).atEnd.isSome ∧
    LeaksNothing 4 4 [100, 113] (onHeap (run step (boot fun _ => 0) [.malloc 5000])
      (fun _ => ⟨0, 0, 0, 0⟩) (fun _ _ => 0) 0) := by
  refine ⟨by decide +kernel, (leaks_nothing_iff (fun _ => 0) [.malloc 5000] (fun _ => ⟨0, 0, 0, 0⟩)
    (fun _ _ => 0) 0 (by decide) (by decide) [100, 113]).mpr ?_⟩
  rintro ⟨f, -, hunique⟩
  have hvacant : (∀ j, j ≤ 5 → j + extents (run step (boot fun _ => 0) [.malloc 5000]).table j ≤ 5) ∧
      ∀ j, j ≤ 6 → j + extents (run step (boot fun _ => 0) [.malloc 5000]).table j ≤ 6 := by
    decide +kernel
  have h5 := hunique 5 ⟨by decide, hvacant.1⟩
  have h6 := hunique 6 ⟨by decide, hvacant.2⟩
  omega

def nearlyFull : World :=
  onHeap (run step (boot fun _ => 0) (filled ++ [.malloc 14336])) (fun _ => ⟨0, 0, 0, 0⟩)
    (fun _ _ => 0) 0

/-- The game's struct gets the last cell, and there is none for the board. -/
theorem leaks_struct : ¬ LeaksNothing 4 4 [] nearlyFull := by
  intro hleaks
  have hentry : (start2048 4 4 [] nearlyFull).atEnd.map (fun w => w.table 4095) = some 1 ∧
      nearlyFull.table 4095 = 0 := by
    decide +kernel
  obtain ⟨w, hend, htaken⟩ := Option.map_eq_some_iff.mp hentry.1
  rw [(hleaks w hend).table, hentry.2] at htaken
  exact absurd htaken (by decide)

end RedstoneOS.GameSession
