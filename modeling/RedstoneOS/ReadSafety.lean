import RedstoneOS.FileReads
import Mathlib.Algebra.GroupWithZero.Nat

namespace RedstoneOS.ReadSafety

open Lib Library.ByteMemory Filesystem ReadData Execute ExecuteChecks

/-- What `read_data` does with the image: it takes a block for an inode, looks an entry of its
table up, or copies from a data block. -/
inductive Access
  | inode (inode : Nat)
  | dataIndex (i : Nat)
  | copy (blockIndex start n : Nat)
  deriving DecidableEq

def Access.copied : Access → Nat
  | .copy _ _ n => n
  | _ => 0

def copied (log : List Access) : Nat := (log.map Access.copied).sum

def loggedLoop (fs : FsInfo) (inode : Nat) :
    Nat → (i offset buf length byteAlreadyRead : Nat) → Mem → (Int × Mem) × List Access
  | 0, _, _, _, _, byteAlreadyRead, m => ((s32 byteAlreadyRead, m), [])
  | fuel + 1, i, offset, buf, length, byteAlreadyRead, m =>
    if i ≤ wrap (offset + length) / blockSize then
      let blockIndex := dataIndex m fs inode i
      if fs.dataBlockLoc ≤ blockIndex then ((-1, m), [.dataIndex i])
      else
        let n := if wrap (offset % blockSize + length) < blockSize then length
          else blockSize - offset % blockSize
        let r := loggedLoop fs inode fuel (i + 1) (wrap (offset + n)) (wrap (buf + n))
          (wrap (length + 4294967296 - n)) (wrap (byteAlreadyRead + n))
          (memmove m buf
            (wrap (fs.dataBlockBegin + blockIndex * blockSize + offset % blockSize)) n)
        (r.1, .dataIndex i :: .copy blockIndex (offset % blockSize) n :: r.2)
    else ((s32 byteAlreadyRead, m), [])

def loggedRead (m : Mem) (fs : FsInfo) (inode offset buf length : Nat) :
    (Int × Mem) × List Access :=
  if dataLength m fs inode ≤ offset then ((0, m), [.inode inode])
  else if fs.inodeNumLoc ≤ inode then ((-1, m), [.inode inode])
  else
    let length := if dataLength m fs inode ≤ wrap (offset + length)
      then dataLength m fs inode - offset else length
    let r := loggedLoop fs inode blockBound (offset / blockSize) offset buf length 0 m
    (r.1, .inode inode :: r.2)

def readLog (m : Mem) (fs : FsInfo) (inode offset buf length : Nat) : List Access :=
  (loggedRead m fs inode offset buf length).2

/-- No inode that is none is interpreted, no entry behind the table is looked up, the copies stay
inside data blocks, and no more is written than the request and the file hold. -/
structure Safe (m : Mem) (fs : FsInfo) (inode offset buf length : Nat) : Prop where
  rejected : fs.inodeNumLoc ≤ inode → (readData m fs inode offset buf length).1 = -1
  inodes : ∀ n, .inode n ∈ readLog m fs inode offset buf length → n < fs.inodeNumLoc
  indexes : ∀ i, .dataIndex i ∈ readLog m fs inode offset buf length → i < 1023
  copies : ∀ blockIndex start n, .copy blockIndex start n ∈ readLog m fs inode offset buf length →
    blockIndex < fs.dataBlockLoc ∧ start + n ≤ blockSize
  total : copied (readLog m fs inode offset buf length) ≤
    min length (dataLength m fs inode - offset)

/-- A request whose end is counted without wrapping around: it ends in the blocks of the table,
or an entry on the way refuses it. -/
def EndsInTable (m : Mem) (fs : FsInfo) (inode offset length : Nat) : Prop :=
  (offset + readCount m fs inode offset length) / blockSize < 1023 ∨
    ∃ i, offset / blockSize ≤ i ∧ i < 1023 ∧ fs.dataBlockLoc ≤ dataIndex m fs inode i

/-- A request whose end wraps around: it seems to end in an earlier block, or its first entry
refuses it. -/
def SeemsDone (m : Mem) (fs : FsInfo) (inode offset length : Nat) : Prop :=
  wrap (offset + length) / blockSize < offset / blockSize ∨
    offset / blockSize < 1023 ∧ fs.dataBlockLoc ≤ dataIndex m fs inode (offset / blockSize)

variable {fs : FsInfo} {m : Mem} {inode fuel i offset buf length read n : Nat}

theorem loggedLoop_value (fs : FsInfo) (inode fuel i offset buf length read : Nat) (m : Mem) :
    (loggedLoop fs inode fuel i offset buf length read m).1 =
      readLoop fs inode fuel i offset buf length read m := by
  induction fuel generalizing i offset buf length read m with
  | zero => rfl
  | succ fuel ih =>
    rw [loggedLoop, readLoop]
    split
    · dsimp only
      split
      · rfl
      · exact ih ..
    · rfl

/-- The log does not change what the call returns and stores. -/
theorem loggedRead_value (m : Mem) (fs : FsInfo) (inode offset buf length : Nat) :
    (loggedRead m fs inode offset buf length).1 = readData m fs inode offset buf length := by
  rw [loggedRead, readData]
  split
  · rfl
  · split
    · rfl
    · exact loggedLoop_value ..

theorem loggedLoop_stop (fuel buf read : Nat) (m : Mem)
    (h : ¬ i ≤ wrap (offset + length) / blockSize) :
    (loggedLoop fs inode fuel i offset buf length read m).2 = [] := by
  cases fuel with
  | zero => rfl
  | succ fuel => rw [loggedLoop, if_neg h]

theorem loggedLoop_refuse (h : i ≤ wrap (offset + length) / blockSize)
    (hbad : fs.dataBlockLoc ≤ dataIndex m fs inode i) :
    (loggedLoop fs inode (fuel + 1) i offset buf length read m).2 = [.dataIndex i] := by
  rw [loggedLoop, if_pos h]
  dsimp only
  rw [if_pos hbad]

theorem loggedLoop_turn (fuel buf read : Nat) (hpos : LoopPosition i offset length)
    (hsum : offset + length < 4294967296)
    (hg : i ≤ (offset + length) / blockSize) (hgood : dataIndex m fs inode i < fs.dataBlockLoc) :
    ∃ n f read', n ≤ length ∧ offset % blockSize + n ≤ blockSize ∧
      LoopPosition (i + 1) (offset + n) (length - n) ∧
      (loggedLoop fs inode (fuel + 1) i offset buf length read m).2 =
        .dataIndex i :: .copy (dataIndex m fs inode i) (offset % blockSize) n ::
          (loggedLoop fs inode fuel (i + 1) (offset + n) (wrap (buf + n)) (length - n) read'
            (fill m buf f n)).2 := by
  have hr := Nat.mod_le offset blockSize
  rw [loggedLoop, wrap_of_lt hsum, if_pos hg]
  dsimp only
  rw [if_neg (Nat.not_le.mpr hgood), wrap_of_lt (show offset % blockSize + length < _ by omega)]
  generalize hn : (if offset % blockSize + length < blockSize then length
    else blockSize - offset % blockSize) = n
  obtain ⟨-, hnl, hnb, hpos'⟩ := chunk_position hpos hg hn.symm
  rw [memmove_eq_fill, wrap_of_lt (show offset + n < _ by omega), wrap_sub (by omega) hnl]
  exact ⟨n, _, _, hnl, hnb, hpos', rfl⟩

structure Contained (fs : FsInfo) (first last length : Nat) (log : List Access) : Prop where
  inodes : ∀ n, .inode n ∉ log
  indexes : ∀ k, .dataIndex k ∈ log → first ≤ k ∧ k ≤ last
  copies : ∀ blockIndex start n, .copy blockIndex start n ∈ log →
    blockIndex < fs.dataBlockLoc ∧ start + n ≤ blockSize
  total : copied log ≤ length

theorem contained_nil (fs : FsInfo) (first last length : Nat) :
    Contained fs first last length [] := by
  refine ⟨?_, ?_, ?_, Nat.zero_le length⟩ <;> simp

theorem contained_refuse {first last : Nat} (fs : FsInfo) (length : Nat) (hle : first ≤ last) :
    Contained fs first last length [.dataIndex first] := by
  refine ⟨by simp, fun k hk => ?_, by simp, Nat.zero_le length⟩
  obtain rfl : k = first := Access.dataIndex.inj (List.mem_singleton.mp hk)
  exact ⟨le_rfl, hle⟩

theorem Contained.turn {first last blockIndex start : Nat} {log : List Access}
    (h : Contained fs (first + 1) last (length - n) log) (hn : n ≤ length) (hle : first ≤ last)
    (hblock : blockIndex < fs.dataBlockLoc) (hstart : start + n ≤ blockSize) :
    Contained fs first last length (.dataIndex first :: .copy blockIndex start n :: log) := by
  refine ⟨fun k hk => ?_, fun k hk => ?_, fun b s c hc => ?_, ?_⟩
  · simp only [List.mem_cons, reduceCtorEq, false_or] at hk
    exact h.inodes k hk
  · simp only [List.mem_cons, Access.dataIndex.injEq, reduceCtorEq, false_or] at hk
    obtain rfl | hk := hk
    · exact ⟨le_rfl, hle⟩
    · have := h.indexes k hk
      omega
  · simp only [List.mem_cons, Access.copy.injEq, reduceCtorEq, false_or] at hc
    obtain ⟨rfl, rfl, rfl⟩ | hc := hc
    · exact ⟨hblock, hstart⟩
    · exact h.copies b s c hc
  · have := h.total
    simp only [copied, List.map_cons, List.sum_cons, Access.copied] at this ⊢
    omega

/-- Where nothing wraps around, the loop looks up the entries up to the last one of the request
at most. -/
theorem loggedLoop_contained (fs : FsInfo) (m : Mem) (inode fuel buf read : Nat)
    (hpos : LoopPosition i offset length)
    (hsum : offset + length < 4294967296) :
    Contained fs i ((offset + length) / blockSize) length
      (loggedLoop fs inode fuel i offset buf length read m).2 := by
  induction fuel generalizing i offset buf length read m with
  | zero => exact contained_nil ..
  | succ fuel ih =>
    by_cases hg : i ≤ (offset + length) / blockSize
    · by_cases hbad : fs.dataBlockLoc ≤ dataIndex m fs inode i
      · rw [loggedLoop_refuse (by rw [wrap_of_lt hsum]; exact hg) hbad]
        exact contained_refuse fs length hg
      · have hgood := Nat.not_le.mp hbad
        obtain ⟨n, f, read', hn, hstart, hpos', hlog⟩ :=
          loggedLoop_turn fuel buf read hpos hsum hg hgood
        have hrest := ih (fill m buf f n) (wrap (buf + n)) read' hpos' (by omega)
        rw [show offset + n + (length - n) = offset + length by omega] at hrest
        rw [hlog]
        exact hrest.turn hn hg hgood hstart
    · rw [loggedLoop_stop _ _ _ _ (by rw [wrap_of_lt hsum]; exact hg)]
      exact contained_nil ..

theorem loggedLoop_next (fuel read : Nat) (hpos : LoopPosition i offset length)
    (hsum : offset + length < 4294967296) (hbuf : buf + length ≤ 4294967296)
    (hout : Outside fs buf length) (hg : i ≤ (offset + length) / blockSize)
    (hgood : dataIndex m fs inode i < fs.dataBlockLoc) :
    ∃ n buf' read' m', n ≤ length ∧ LoopPosition (i + 1) (offset + n) (length - n) ∧
      buf' + (length - n) ≤ 4294967296 ∧ Outside fs buf' (length - n) ∧ SameImage fs m' m ∧
      (loggedLoop fs inode (fuel + 1) i offset buf length read m).2 =
        .dataIndex i :: .copy (dataIndex m fs inode i) (offset % blockSize) n ::
          (loggedLoop fs inode fuel (i + 1) (offset + n) buf' (length - n) read' m').2 := by
  obtain ⟨n, f, read', hn, -, hpos', hlog⟩ := loggedLoop_turn fuel buf read hpos hsum hg hgood
  obtain ⟨hout', hbuf', hrest⟩ := outside_rest hbuf hout hn
  exact ⟨n, wrap (buf + n), read', fill m buf f n, hn, hpos', hbuf', hrest,
    sameImage_fill hout' m f, hlog⟩

theorem loggedLoop_stops (hm : Mounted fs) (hi : inode < fs.inodeNumLoc)
    (hpos : LoopPosition i offset length) (hsum : offset + length < 4294967296)
    (hbuf : buf + length ≤ 4294967296) (hout : Outside fs buf length) {b : Nat} (hib : i ≤ b)
    (hb : b < 1023) (hbad : fs.dataBlockLoc ≤ dataIndex m fs inode b) :
    ∀ k, .dataIndex k ∈ (loggedLoop fs inode fuel i offset buf length read m).2 → k ≤ b := by
  induction fuel generalizing i offset buf length read m with
  | zero => simp [loggedLoop]
  | succ fuel ih =>
    by_cases hg : i ≤ (offset + length) / blockSize
    · by_cases hrefuse : fs.dataBlockLoc ≤ dataIndex m fs inode i
      · rw [loggedLoop_refuse (by rw [wrap_of_lt hsum]; exact hg) hrefuse]
        intro k hk
        simp only [List.mem_singleton, Access.dataIndex.injEq] at hk
        omega
      · have hgood := Nat.not_le.mp hrefuse
        have hne : i ≠ b := by
          rintro rfl
          exact hrefuse hbad
        obtain ⟨n, buf', read', m', hn, hpos', hbuf', hrest, himage, hlog⟩ :=
          loggedLoop_next fuel read hpos hsum hbuf hout hg hgood
        have hbad' : fs.dataBlockLoc ≤ dataIndex m' fs inode b := by
          rwa [dataIndex_congr hm hi hb himage]
        rw [hlog]
        intro k hk
        simp only [List.mem_cons, Access.dataIndex.injEq, reduceCtorEq, false_or] at hk
        obtain rfl | hk := hk
        · exact hib
        · exact ih hpos' (by omega) hbuf' hrest (by omega) hbad' k hk
    · rw [loggedLoop_stop _ _ _ _ (by rw [wrap_of_lt hsum]; exact hg)]
      simp

theorem loggedLoop_reaches (fuel read : Nat) (hm : Mounted fs) (hi : inode < fs.inodeNumLoc)
    (hpos : LoopPosition i offset length) (hsum : offset + length < 4294967296)
    (hbuf : buf + length ≤ 4294967296) (hout : Outside fs buf length) {t : Nat} (hit : i ≤ t)
    (ht : t ≤ (offset + length) / blockSize) (hfuel : t < i + fuel)
    (hgood : ∀ k, i ≤ k → k < t → GoodBlock m fs inode k) :
    .dataIndex t ∈ (loggedLoop fs inode fuel i offset buf length read m).2 := by
  induction fuel generalizing i offset buf length read m with
  | zero => omega
  | succ fuel ih =>
    have hg : i ≤ (offset + length) / blockSize := by omega
    by_cases hrefuse : fs.dataBlockLoc ≤ dataIndex m fs inode i
    · have hend : i = t := by
        by_contra hne
        exact absurd (hgood i le_rfl (by omega)).2 (Nat.not_lt.mpr hrefuse)
      rw [loggedLoop_refuse (by rw [wrap_of_lt hsum]; exact hg) hrefuse, hend]
      exact List.mem_singleton.mpr rfl
    · obtain ⟨n, buf', read', m', hn, hpos', hbuf', hrest, himage, hlog⟩ :=
        loggedLoop_next fuel read hpos hsum hbuf hout hg (Nat.not_le.mp hrefuse)
      have hend : offset + n + (length - n) = offset + length := by omega
      rw [hlog]
      obtain rfl | hlt := Nat.eq_or_lt_of_le hit
      · exact List.mem_cons_self
      · refine List.mem_cons_of_mem _ (List.mem_cons_of_mem _ ?_)
        refine ih read' hpos' (by omega) hbuf' hrest hlt (by rwa [hend]) (by omega) fun k hk hkt => ?_
        exact (goodBlock_congr hm hi himage).mpr (hgood k (by omega) hkt)

theorem load32_lt (m : Mem) (a : Nat) : load32 m a < 4294967296 := by
  have h0 := (m a).toNat_lt
  have h1 := (m (a + 1)).toNat_lt
  have h2 := (m (a + 2)).toNat_lt
  have h3 := (m (a + 3)).toNat_lt
  simp only [load32]
  omega

theorem mem_log {a : Access} {log : List Access} (ha : ∀ n, a ≠ .inode n) :
    a ∈ Access.inode inode :: log ↔ a ∈ log := by
  rw [List.mem_cons, or_iff_right (ha inode)]

theorem readLog_loop {count : Nat} (buf : Nat) (hi : inode < fs.inodeNumLoc)
    (hoff : offset < dataLength m fs inode)
    (hcount : (if dataLength m fs inode ≤ wrap (offset + length) then
      dataLength m fs inode - offset else length) = count) :
    readLog m fs inode offset buf length = .inode inode ::
      (loggedLoop fs inode blockBound (offset / blockSize) offset buf count 0 m).2 := by
  rw [readLog, loggedRead, if_neg (Nat.not_le.mpr hoff), if_neg (Nat.not_le.mpr hi)]
  simp only [hcount]

theorem safe_of_contained {first last : Nat} {log : List Access} (hi : inode < fs.inodeNumLoc)
    (hlog : readLog m fs inode offset buf length = .inode inode :: log)
    (h : Contained fs first last (min length (dataLength m fs inode - offset)) log)
    (hindex : ∀ k, .dataIndex k ∈ log → k < 1023) : Safe m fs inode offset buf length := by
  refine ⟨fun hn => absurd hi (Nat.not_lt.mpr hn), fun n hn => ?_, fun k hk => ?_,
    fun b s n hc => ?_, ?_⟩
  · rw [hlog, List.mem_cons, Access.inode.injEq] at hn
    obtain rfl | hn := hn
    · exact hi
    · exact absurd hn (h.inodes n)
  · rw [hlog, mem_log (by simp)] at hk
    exact hindex k hk
  · rw [hlog, mem_log (by simp)] at hc
    exact h.copies b s n hc
  · rw [hlog]
    have := h.total
    simp only [copied, List.map_cons, List.sum_cons, Access.copied] at this ⊢
    omega

theorem safe_counted (hm : Mounted fs) (hi : inode < fs.inodeNumLoc)
    (hoff : offset < dataLength m fs inode) (hsum : offset + length < 4294967296)
    (hbuf : buf + readCount m fs inode offset length ≤ 4294967296)
    (hout : Outside fs buf (readCount m fs inode offset length)) :
    Safe m fs inode offset buf length ↔ EndsInTable m fs inode offset length := by
  have hcount : (if dataLength m fs inode ≤ wrap (offset + length) then
      dataLength m fs inode - offset else length) = readCount m fs inode offset length := by
    rw [wrap_of_lt hsum, readCount]
    split <;> omega
  have hle : offset + readCount m fs inode offset length < 4294967296 := by
    rw [readCount]
    omega
  have hlog := readLog_loop buf hi hoff hcount
  have hcontained := loggedLoop_contained fs m inode blockBound buf 0 (Or.inl rfl) hle
  constructor
  · intro hsafe
    by_contra hends
    simp only [EndsInTable, not_or, not_exists, not_and, Nat.not_lt, Nat.not_le] at hends
    obtain ⟨hlast, hall⟩ := hends
    -- the first entry behind the table, or the first one at all
    have hreach := loggedLoop_reaches blockBound 0 hm hi (Or.inl rfl) hle hbuf hout
      (Nat.le_max_left (offset / blockSize) 1023)
      (Nat.max_le.mpr ⟨Nat.div_le_div_right (by omega), hlast⟩)
      (Nat.max_lt.mpr ⟨Nat.lt_add_of_pos_right (by decide),
        Nat.lt_of_lt_of_le (by decide) (Nat.le_add_left blockBound _)⟩)
      (fun k hk hkt => ⟨by omega, hall k hk (by omega)⟩)
    have := hsafe.indexes _ (by rw [hlog]; exact List.mem_cons_of_mem _ hreach)
    omega
  · intro hends
    refine safe_of_contained hi hlog hcontained fun k hk => ?_
    obtain hlast | ⟨b, hb, hb', hbad⟩ := hends
    · have := (hcontained.indexes k hk).2
      omega
    · have := loggedLoop_stops hm hi (Or.inl rfl) hle hbuf hout hb hb' hbad k hk
      omega

/-- A request whose end wraps around is not cut off at the end of the file. Its only chunk has all
of its length. -/
theorem safe_wrapped (hi : inode < fs.inodeNumLoc) (hoff : offset < dataLength m fs inode)
    (hlength : length < 4294967296) (hsum : 4294967296 ≤ offset + length) :
    Safe m fs inode offset buf length ↔ SeemsDone m fs inode offset length := by
  have hdata := load32_lt m (inodeAddr fs inode)
  rw [← dataLength] at hdata
  have hwrap : wrap (offset + length) = offset + length - 4294967296 := by
    simp only [wrap]
    omega
  have hcount : (if dataLength m fs inode ≤ wrap (offset + length) then
      dataLength m fs inode - offset else length) = length := by
    rw [hwrap, if_neg (by omega)]
  have hlog := readLog_loop buf hi hoff hcount
  rw [SeemsDone]
  by_cases hg : offset / blockSize ≤ wrap (offset + length) / blockSize
  · rw [or_iff_right (Nat.not_lt.mpr hg)]
    by_cases hbad : fs.dataBlockLoc ≤ dataIndex m fs inode (offset / blockSize)
    · rw [blockBound, loggedLoop_refuse hg hbad] at hlog
      rw [and_iff_left hbad]
      constructor
      · intro hsafe
        exact hsafe.indexes _ (by rw [hlog]; simp)
      · intro hfirst
        refine safe_of_contained hi hlog (contained_refuse fs _ le_rfl) fun k hk => ?_
        rw [Access.dataIndex.inj (List.mem_singleton.mp hk)]
        exact hfirst
    · refine iff_of_false (fun hsafe => ?_) (fun h => hbad h.2)
      have hshort : wrap (offset % blockSize + length) < blockSize := by
        simp only [hwrap, blockSize] at hg
        simp only [wrap, blockSize]
        omega
      have hcopy : .copy (dataIndex m fs inode (offset / blockSize)) (offset % blockSize) length ∈
          (loggedLoop fs inode blockBound (offset / blockSize) offset buf length 0 m).2 := by
        rw [blockBound, loggedLoop, if_pos hg]
        dsimp only
        rw [if_neg hbad, if_pos hshort]
        exact List.mem_cons_of_mem _ List.mem_cons_self
      have hinside := (hsafe.copies _ _ _ (by rw [hlog]; exact List.mem_cons_of_mem _ hcopy)).2
      simp only [hwrap, blockSize] at hg hinside
      omega
  · rw [loggedLoop_stop blockBound buf 0 m hg] at hlog
    refine iff_of_true ?_ (Or.inl (Nat.not_le.mp hg))
    exact safe_of_contained hi hlog (contained_nil fs 0 0 _) (by simp)

/-- Which calls are safe. A block that is no inode is always interpreted as one first; a request
past the last entry of the table runs on behind it; and a request whose end wraps around is
copied in one piece. -/
theorem safe_iff (hm : Mounted fs) (hlength : length < 4294967296)
    (hbuf : buf + min length (dataLength m fs inode - offset) ≤ 4294967296)
    (hout : Outside fs buf (min length (dataLength m fs inode - offset))) :
    Safe m fs inode offset buf length ↔ inode < fs.inodeNumLoc ∧
      (offset < dataLength m fs inode →
        (offset + length < 4294967296 → EndsInTable m fs inode offset length) ∧
        (4294967296 ≤ offset + length → SeemsDone m fs inode offset length)) := by
  have hinode : Safe m fs inode offset buf length → inode < fs.inodeNumLoc := by
    intro hsafe
    refine hsafe.inodes inode ?_
    rw [readLog, loggedRead]
    split
    · exact List.mem_singleton.mpr rfl
    · split
      · exact List.mem_singleton.mpr rfl
      · exact List.mem_cons_self
  constructor
  · intro hsafe
    have hi := hinode hsafe
    exact ⟨hi, fun hoff => ⟨fun hsum => (safe_counted hm hi hoff hsum hbuf hout).mp hsafe,
      fun hsum => (safe_wrapped hi hoff hlength hsum).mp hsafe⟩⟩
  · rintro ⟨hi, hrequest⟩
    by_cases hoff : offset < dataLength m fs inode
    · obtain ⟨hcounted, hwrapped⟩ := hrequest hoff
      obtain hsum | hsum := Nat.lt_or_ge (offset + length) 4294967296
      · exact (safe_counted hm hi hoff hsum hbuf hout).mpr (hcounted hsum)
      · exact (safe_wrapped hi hoff hlength hsum).mpr (hwrapped hsum)
    · have hlog : readLog m fs inode offset buf length = [.inode inode] := by
        rw [readLog, loggedRead, if_pos (Nat.not_lt.mp hoff)]
      exact safe_of_contained hi hlog (contained_nil fs 0 0 _) (by simp)

theorem safe_tiny : Safe tinySystem.mem tinySystem.fs 0 10 0x10000 100 :=
  (safe_iff tinySystem_mounted (by decide) (by decide) (Or.inl (by decide))).mpr
    ⟨by decide, fun _ => ⟨fun _ => Or.inl (by decide), fun hwraps => absurd hwraps (by decide)⟩⟩

/-- At position 1 of a file, a request for -1 bytes is a request for 4294967295 bytes, which are
copied from the one block that the file has. -/
theorem negative_request_unsafe : ¬ Safe tinySystem.mem tinySystem.fs 0 1 0x10000 4294967295 := by
  intro hsafe
  have hcopy : .copy 0 1 4294967295 ∈ readLog tinySystem.mem tinySystem.fs 0 1 0x10000 4294967295 := by
    decide +kernel
  exact absurd (hsafe.copies 0 1 4294967295 hcopy).2 (by decide)

end RedstoneOS.ReadSafety
