import RedstoneOS.Filesystem
import RedstoneOS.Screen
import Mathlib.Data.List.TakeDrop

namespace RedstoneOS.Mouse

open Filesystem

def movementOne : UInt8 := 8
def xSign : UInt8 := 16
def ySign : UInt8 := 32
def xOverflow : UInt8 := 64
def yOverflow : UInt8 := 128
def ps2RespAck : UInt8 := 0xFA

structure Position where
  x : Int
  y : Int
  deriving DecidableEq

/-- The place that a byte of the stream was read at: into the `package` that an invocation begins with,
also if the handler then drops it for its bits, or as one of the two bytes that `read_mouse` fetches
after it. -/
inductive Role
  | header
  | data
  deriving DecidableEq

/-- `unread` are the bytes that the controller still has. `roles` is history. -/
structure State where
  unread : List UInt8
  mouse : Position
  screen : Screen.State
  roles : List Role

/-- `read_mouse`, which waits for ever if no byte comes. -/
def readMouse (s : State) : Option (UInt8 × State) :=
  match s.unread with
  | [] => none
  | b :: rest => some (b, { s with unread := rest, roles := s.roles ++ [.data] })

/-- The division is that of C, towards zero. -/
def movePosition (dx dy : Int) (p : Position) : Position :=
  let x := p.x + dx.tdiv 2
  let x := if x ≤ 0 then 0 else x
  let x := if 79 ≤ x then 79 else x
  let y := p.y - dy.tdiv 2
  let y := if y ≤ 0 then 0 else y
  let y := if 24 ≤ y then 24 else y
  ⟨x, y⟩

def move (dx dy : Int) (s : State) : State :=
  let p := movePosition dx dy s.mouse
  { s with mouse := p, screen := Screen.updateCursor p.y p.x s.screen }

/-- A byte of the packet as an `int32_t`, with the upper bits set if the header says so. -/
def extend (negative : Bool) (b : UInt8) : Int :=
  s32 (if negative then b.toNat ||| 0xFFFFFF00 else b.toNat)

/-- `none` is an invocation that does not return. -/
def mouseHandler (s : State) : Option State :=
  match s.unread with
  | [] => some s
  | package :: rest =>
    let s := { s with unread := rest, roles := s.roles ++ [.header] }
    if package = 0 ∨ package = ps2RespAck then some s
    else if package &&& movementOne ≠ 0 ∧ package &&& xOverflow = 0 ∧ package &&& yOverflow = 0 then
      (readMouse s).bind fun (dx, s) => (readMouse s).bind fun (dy, s) =>
        some (move (extend (package &&& xSign ≠ 0) dx) (extend (package &&& ySign ≠ 0) dy) s)
    else some s

def invocations : Nat → State → Option State
  | 0, s => some s
  | n + 1, s => (mouseHandler s).bind (invocations n)

/-- What the mouse sends: bit 3 of the header is always set. -/
structure Packet where
  header : UInt8
  dx : UInt8
  dy : UInt8
  one : header &&& movementOne ≠ 0

def Packet.bytes (p : Packet) : List UInt8 := [p.header, p.dx, p.dy]

def Packet.Overflows (p : Packet) : Prop := p.header &&& xOverflow ≠ 0 ∨ p.header &&& yOverflow ≠ 0

instance (p : Packet) : Decidable p.Overflows := inferInstanceAs (Decidable (_ ∨ _))

def signed (negative : Bool) (b : UInt8) : Int := if negative then b.toNat - 256 else b.toNat

/-- A packet without overflow moves by its displacements, the others do not. -/
def follow (p : Position) (packet : Packet) : Position :=
  if packet.Overflows then p
  else movePosition (signed (packet.header &&& xSign ≠ 0) packet.dx)
    (signed (packet.header &&& ySign ≠ 0) packet.dy) p

def OnScreen (p : Position) : Prop := 0 ≤ p.x ∧ p.x ≤ 79 ∧ 0 ≤ p.y ∧ p.y ≤ 24

instance (p : Position) : Decidable (OnScreen p) := inferInstanceAs (Decidable (_ ∧ _))

def stream (packets : List Packet) : List UInt8 := packets.flatMap Packet.bytes

def roleAt (j : Nat) : Role := if j % 3 = 0 then .header else .data

def RolesRight (roles : List Role) : Prop := ∀ j, (hj : j < roles.length) → roles[j] = roleAt j

def receiving (packets : List Packet) (start : Position) (screen : Screen.State) : State :=
  ⟨stream packets, start, screen, []⟩

/-- However often it is invoked, the handler reads headers in the place of headers and data in the
place of data, and once the stream has been read the mouse stands where the packets have moved it. -/
structure Aligned (packets : List Packet) (s : State) : Prop where
  roles : ∀ n, ∃ s', invocations n s = some s' ∧ RolesRight s'.roles
  final : ∃ n s', invocations n s = some s' ∧ s'.unread = [] ∧ s'.mouse = packets.foldl follow s.mouse
  inside : ∀ n s', invocations n s = some s' → OnScreen s'.mouse

variable {s s' : State} {packet : Packet} {packets : List Packet} {p : Position}

theorem extend_eq (negative : Bool) (b : UInt8) : extend negative b = signed negative b := by
  have hb : b.toNat < 256 := b.toNat_lt
  cases negative with
  | false =>
    simp only [extend, signed, s32, Bool.false_eq_true, if_false]
    rw [if_pos (by omega)]
  | true =>
    have hor : b.toNat ||| 0xFFFFFF00 = 0xFFFFFF00 + b.toNat := by
      have h := Nat.two_pow_add_eq_or_of_lt (i := 8) hb 0xFFFFFF
      rw [Nat.or_comm]
      exact h.symm
    simp only [extend, signed, s32, if_true, hor]
    rw [if_neg (by omega)]
    omega

theorem movePosition_onScreen (dx dy : Int) (p : Position) : OnScreen (movePosition dx dy p) := by
  simp only [OnScreen, movePosition]
  omega

theorem mouseHandler_onScreen (hp : OnScreen s.mouse) (h : mouseHandler s = some s') :
    OnScreen s'.mouse := by
  rw [mouseHandler] at h
  split at h
  · cases h
    exact hp
  · dsimp only at h
    split at h
    · cases h
      exact hp
    · split at h
      · obtain ⟨r, -, h⟩ := Option.bind_eq_some_iff.mp h
        obtain ⟨r', -, h⟩ := Option.bind_eq_some_iff.mp h
        cases h
        exact movePosition_onScreen _ _ _
      · cases h
        exact hp

theorem invocations_onScreen {n : Nat} (hp : OnScreen s.mouse) (h : invocations n s = some s') :
    OnScreen s'.mouse := by
  induction n generalizing s with
  | zero =>
    cases h
    exact hp
  | succ n ih =>
    obtain ⟨s₁, hfirst, hrest⟩ := Option.bind_eq_some_iff.mp h
    exact ih (mouseHandler_onScreen hp hfirst) hrest

theorem invocations_succ (n : Nat) (s : State) :
    invocations (n + 1) s = (mouseHandler s).bind (invocations n) := rfl

theorem mouseHandler_overflow {rest : List UInt8} (h : packet.Overflows)
    (hs : s.unread = packet.header :: rest) :
    mouseHandler s = some { s with unread := rest, roles := s.roles ++ [.header] } := by
  have hmove : ¬ (packet.header &&& movementOne ≠ 0 ∧ packet.header &&& xOverflow = 0 ∧
      packet.header &&& yOverflow = 0) :=
    fun hmove => h.elim (fun hx => hx hmove.2.1) (fun hy => hy hmove.2.2)
  rw [mouseHandler, hs]
  dsimp only
  rw [if_neg hmove, ite_self]

theorem mouseHandler_packet {rest : List UInt8} (h : ¬ packet.Overflows)
    (hs : s.unread = packet.bytes ++ rest) :
    ∃ s', mouseHandler s = some s' ∧ s'.unread = rest ∧ s'.mouse = follow s.mouse packet ∧
      s'.roles = s.roles ++ [.header, .data, .data] := by
  have hone := packet.one
  have hx : packet.header &&& xOverflow = 0 := by
    by_contra hx
    exact h (Or.inl hx)
  have hy : packet.header &&& yOverflow = 0 := by
    by_contra hy
    exact h (Or.inr hy)
  have hheader : ¬ (packet.header = 0 ∨ packet.header = ps2RespAck) := by
    rintro (h0 | hack)
    · rw [h0] at hone
      exact hone rfl
    · rw [hack] at hx
      exact absurd hx (by decide)
  refine ⟨move (extend (packet.header &&& xSign ≠ 0) packet.dx)
    (extend (packet.header &&& ySign ≠ 0) packet.dy)
    ⟨rest, s.mouse, s.screen, s.roles ++ [.header] ++ [.data] ++ [.data]⟩, ?_, rfl, ?_, ?_⟩
  · rw [mouseHandler, hs]
    dsimp only [Packet.bytes, List.cons_append, List.nil_append]
    rw [if_neg hheader, if_pos ⟨hone, hx, hy⟩]
    rfl
  · rw [follow, if_neg h, ← extend_eq, ← extend_eq]
    rfl
  · simp [move]

/-- The state between two invocations while headers have been headers: the stream goes on with
a packet, and the roles with a header. -/
structure InStep (packets : List Packet) (s : State) : Prop where
  unread : s.unread = stream packets
  right : RolesRight s.roles
  whole : s.roles.length % 3 = 0

theorem rolesRight_packet {roles : List Role} (h : RolesRight roles) (hlen : roles.length % 3 = 0) :
    RolesRight (roles ++ [.header, .data, .data]) := by
  intro j hj
  rw [List.length_append, List.length_cons, List.length_cons, List.length_singleton] at hj
  by_cases hold : j < roles.length
  · rw [List.getElem_append_left hold, h j hold]
  · obtain ⟨i, rfl⟩ := Nat.exists_eq_add_of_le (Nat.le_of_not_lt hold)
    have hmod : (roles.length + i) % 3 = i := by omega
    have hi : i = 0 ∨ i = 1 ∨ i = 2 := by omega
    rw [List.getElem_append_right (by omega), roleAt, hmod]
    obtain rfl | rfl | rfl := hi
    · simp
    · simp
    · simp

theorem inStep_packet (h : InStep (packet :: packets) s) (hfine : ¬ packet.Overflows) :
    ∃ s', mouseHandler s = some s' ∧ InStep packets s' ∧ s'.mouse = follow s.mouse packet := by
  have hs : s.unread = packet.bytes ++ stream packets := h.unread
  obtain ⟨s', hhandler, hunread, hmouse, hroles⟩ := mouseHandler_packet hfine hs
  refine ⟨s', hhandler, ⟨hunread, ?_, ?_⟩, hmouse⟩
  · rw [hroles]
    exact rolesRight_packet h.right h.whole
  · have hwhole := h.whole
    rw [hroles, List.length_append, List.length_cons, List.length_cons, List.length_singleton]
    omega

theorem invocations_idle (n : Nat) (h : s.unread = []) : invocations n s = some s := by
  induction n with
  | zero => rfl
  | succ n ih =>
    rw [invocations_succ, mouseHandler, h]
    exact ih

/-- A stream without overflows: after any number of invocations the roles are right, and after
one for each packet the mouse has followed them all. -/
theorem run_fine (h : InStep packets s) (hfine : ∀ q, q ∈ packets → ¬ q.Overflows) (n : Nat) :
    ∃ s', invocations n s = some s' ∧ RolesRight s'.roles ∧
      (packets.length ≤ n → s'.unread = [] ∧ s'.mouse = packets.foldl follow s.mouse) := by
  induction packets generalizing s n with
  | nil => exact ⟨s, invocations_idle n h.unread, h.right, fun _ => ⟨h.unread, rfl⟩⟩
  | cons q packets ih =>
    cases n with
    | zero => exact ⟨s, rfl, h.right, fun hn => absurd hn (by simp)⟩
    | succ n =>
      obtain ⟨s₁, hhandler, hstep, hmouse⟩ := inStep_packet h (hfine q List.mem_cons_self)
      obtain ⟨s', hrest, hroles, hend⟩ :=
        ih hstep (fun r hr => hfine r (List.mem_cons_of_mem q hr)) n
      refine ⟨s', ?_, hroles, fun hn => ?_⟩
      · rw [invocations_succ, hhandler, Option.bind_some, hrest]
      · rw [List.foldl_cons, ← hmouse]
        exact hend (Nat.le_of_succ_le_succ hn)

theorem mouseHandler_header {b : UInt8} {rest : List UInt8} (hs : s.unread = b :: rest)
    (h : mouseHandler s = some s') : ∃ tail, s'.roles = s.roles ++ .header :: tail := by
  rw [mouseHandler, hs] at h
  dsimp only at h
  split at h
  · cases h
    exact ⟨[], rfl⟩
  · split at h
    · obtain ⟨⟨dx, s₁⟩, hdx, h⟩ := Option.bind_eq_some_iff.mp h
      obtain ⟨⟨dy, s₂⟩, hdy, h⟩ := Option.bind_eq_some_iff.mp h
      cases h
      rw [readMouse] at hdx hdy
      split at hdx
      · cases hdx
      · cases hdx
        split at hdy
        · cases hdy
        · cases hdy
          exact ⟨[.data, .data], by simp [move]⟩
    · cases h
      exact ⟨[], rfl⟩

/-- Behind the header of a packet that overflows, a displacement is taken for a header. -/
theorem overflow_missteps (h : InStep (packet :: packets) s) (hover : packet.Overflows)
    (hright : ∃ s', invocations 2 s = some s' ∧ RolesRight s'.roles) : False := by
  obtain ⟨s', hrun, hroles⟩ := hright
  have hs : s.unread = packet.header :: (packet.dx :: packet.dy :: stream packets) := h.unread
  rw [invocations_succ, mouseHandler_overflow hover hs, Option.bind_some, invocations_succ] at hrun
  obtain ⟨s₁, hsecond, hlast⟩ := Option.bind_eq_some_iff.mp hrun
  cases hlast
  obtain ⟨tail, htail⟩ := mouseHandler_header rfl hsecond
  have hwhole := h.whole
  have hmod : (s.roles.length + 1) % 3 ≠ 0 := by omega
  have hlong : s.roles.length + 1 < s'.roles.length := by
    rw [htail]
    simp
  have hrole := hroles (s.roles.length + 1) hlong
  rw [roleAt, if_neg hmod] at hrole
  simp [htail] at hrole

theorem fine_of_roles (h : InStep packets s)
    (hright : ∀ n, ∃ s', invocations n s = some s' ∧ RolesRight s'.roles) :
    ∀ q, q ∈ packets → ¬ q.Overflows := by
  induction packets generalizing s with
  | nil => simp
  | cons q packets ih =>
    have hfine : ¬ q.Overflows := fun hover => overflow_missteps h hover (hright 2)
    obtain ⟨s₁, hhandler, hstep, -⟩ := inStep_packet h hfine
    have hrest := ih hstep fun n => by
      have hnext := hright (n + 1)
      rwa [invocations_succ, hhandler] at hnext
    exact List.forall_mem_cons.mpr ⟨hfine, hrest⟩

theorem inStep_receiving (packets : List Packet) (start : Position) (screen : Screen.State) :
    InStep packets (receiving packets start screen) :=
  ⟨rfl, fun _ hj => absurd hj (Nat.not_lt_zero _), rfl⟩

/-- The handler keeps to the packets exactly as long as none of them overflows: it leaves the
displacements of one that does in the stream. -/
theorem aligned_iff (packets : List Packet) {start : Position} (hstart : OnScreen start)
    (screen : Screen.State) :
    Aligned packets (receiving packets start screen) ↔ ∀ q, q ∈ packets → ¬ q.Overflows := by
  have hstep := inStep_receiving packets start screen
  constructor
  · exact fun h => fine_of_roles hstep h.roles
  · intro hfine
    refine ⟨fun n => ?_, ?_, fun n s' hrun => invocations_onScreen hstart hrun⟩
    · obtain ⟨s', hrun, hroles, -⟩ := run_fine hstep hfine n
      exact ⟨s', hrun, hroles⟩
    · obtain ⟨s', hrun, -, hend⟩ := run_fine hstep hfine packets.length
      exact ⟨packets.length, s', hrun, hend le_rfl⟩

def tinyScreen : Screen.State := ⟨fun _ => 0, fun _ => 0, fun _ => 0, fun _ => 0, []⟩

def movePackets : List Packet := [⟨8, 6, 0, by decide⟩, ⟨0x38, 0xF8, 0xF8, by decide⟩]

theorem aligned_two : OnScreen ⟨0, 0⟩ ∧
    (Aligned movePackets (receiving movePackets ⟨0, 0⟩ tinyScreen) ↔
      ∀ q, q ∈ movePackets → ¬ q.Overflows) :=
  ⟨by decide, aligned_iff movePackets (by decide) tinyScreen⟩

/-- The displacements 8 and 8 of a packet that overflows are read as the header of a packet with
the displacements 8 and what comes next. -/
def overflowPackets : List Packet := [⟨0x48, 8, 8, by decide⟩, ⟨8, 6, 6, by decide⟩]

theorem overflow_not_aligned :
    ¬ Aligned overflowPackets (receiving overflowPackets ⟨0, 0⟩ tinyScreen) := by
  intro h
  exact overflow_missteps (inStep_receiving overflowPackets ⟨0, 0⟩ tinyScreen) (Or.inl (by decide))
    (h.roles 2)

end RedstoneOS.Mouse
