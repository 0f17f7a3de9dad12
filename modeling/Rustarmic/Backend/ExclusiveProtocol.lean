import Rustarmic.Backend.Exclusive
import Rustarmic.Backend.LiveRanges
import Rustarmic.Lib.Transition

/-!
# The exclusive monitors of cores that share a memory

Any number of cores with their own contexts interleave their accesses to one memory, every load and
every read-modify-write being one atomic step.  A store-exclusive that succeeds is meant to be the
end of an atomic step that the last load-exclusive of its core began, at the same address and width.

The generated code keeps its side of this with one weak spot.  A load-exclusive reads its address
from wherever the allocator put the value, loads, and reads the address *again* to arm the monitor.
If the load went through the embedder's callback, the location may have changed in between: an
address that dies at the load-exclusive may be in `xmm6` to `xmm15`, since the clobber masks cover
only what is inside a live range and not its end, and a SysV callback need not keep a vector
register.  The monitor is then armed with an address that was never loaded from.

* `Monitored.Run` — the machine with the history of its operations.  An operand is a location of the
  allocator, read from the host registers of the core; a load-exclusive takes along what its
  callback leaves in the vector registers, if it has to call one.
* `Monitored.KeepsAddress` — the condition on a step under which nothing goes wrong: the location of
  the address reads the same after the callback.
* `Monitored.Armed` — what an armed monitor says about the history; `Reachable.armed` is the
  invariant of the runs all of whose steps keep their addresses.
* `exclusive_protocol` — for these runs, what the status of a store-exclusive means, and that the
  memory is the result of taking every update that succeeded as one atomic step.
* `clobbered_breaks_protocol` — a run, with an operand where `linearScan` puts it, that is not one
  of them.
-/

set_option autoImplicit false

namespace Rustarmic

open ModularMemory

/-! ## The machine -/

/-- Where the values of a block are: the registers of the host and the frame below its base. -/
structure HostRegs where
  gpr : Nat → U64
  xmm : Nat → U128
  frame : Nat → U64

/-- `load64`: 64 bits from a location.  There is no code that reads from `none`. -/
def Loc.read64 (h : HostRegs) : Loc → U64
  | reg r => h.gpr r
  | xmm x => (h.xmm x).setWidth 64
  | spill off => h.frame off
  | imm v => v
  | none => 0

/-- The registers after a call that leaves `left` in the vector registers; general registers that
values are kept in and the frame are the callee's to keep. -/
def HostRegs.afterCall (h : HostRegs) (left : Option (Nat → U128)) : HostRegs :=
  { h with xmm := left.getD h.xmm }

/-- What a core has to itself: its monitor, the fault flag, the host registers, and the value the
last load-exclusive loaded. -/
structure Core where
  monitor : Monitor
  memFault : U8
  host : HostRegs
  loaded : U128

/-- The access port of one core on the shared memory.  `left` is what the read callback leaves in
the vector registers; there is none if the load goes inline. -/
def sharedPort (left : Option (Nat → U128)) : AccessPort (Core × SharedMemory) where
  load w a s := (({ s.1 with host := s.1.host.afterCall left }, s.2), read 128 s.2 a w.bytes)
  cas w a expected new s :=
    let r := rmw .cas w a new expected s.2
    ((s.1, r.1), r.2)
  monitor s := s.1.monitor
  setMonitor m s := ({ s.1 with monitor := m }, s.2)
  memFault s := s.1.memFault

namespace Monitored

/-! ## Operations and their history -/

/-- An operation of one core.  The value of a store-exclusive is computed from what the last
load-exclusive loaded; `host` is what all the other code does to the host registers. -/
inductive Operation where
  | loadEx (w : Width) (operand : Loc) (left : Option (Nat → U128))
  | storeEx (w : Width) (a : U64) (modify : U128 → U128)
  | clrex
  | load (w : Width) (a : U64)
  | store (w : Width) (a : U64) (value : U128)
  | atomic (op : AtomicOp) (w : Width) (a : U64) (operand expected : U128)
  | host (f : HostRegs → HostRegs)

/-- What an operation returns; for a load-exclusive, also where it loaded from. -/
inductive Response where
  | done
  | value (v : U128)
  | observed (a : U64) (v : U128)
  | status (s : U32)

namespace Operation

def run : Operation → Core × SharedMemory → (Core × SharedMemory) × Response
  | loadEx w operand left, s =>
    let r := (sharedPort left).emitLoadEx w (fun s => operand.read64 s.1.host)
      (fun v s => ({ s.1 with loaded := v }, s.2)) s
    (r.1, .observed (operand.read64 s.1.host) r.2)
  | storeEx w a modify, s =>
    let r := (sharedPort none).emitStoreEx w a (modify s.1.loaded) s
    (r.1, .status r.2)
  | clrex, s => ((sharedPort none).emitClrex s, .done)
  | load w a, s => (s, .value (read 128 s.2 a w.bytes))
  | store w a value, s => ((s.1, write s.2 a w.bytes value), .done)
  | atomic op w a operand expected, s =>
    let r := rmw op w a operand expected s.2
    ((s.1, r.1), .value r.2)
  | host f, s => (({ s.1 with host := f s.1.host }, s.2), .done)

/-- The bytes an operation may store to. -/
def target : Operation → Option (Width × U64)
  | storeEx w a _ | store w a _ | atomic _ w a _ _ => some (w, a)
  | _ => none

/-- The operations that leave the monitor alone. -/
def plain : Operation → Prop
  | loadEx _ _ _ | storeEx _ _ _ | clrex => False
  | _ => True

/-- A load-exclusive finds its address where it was before the callback. -/
def Keeps (h : HostRegs) : Operation → Prop
  | loadEx _ operand left => operand.read64 (h.afterCall left) = operand.read64 h
  | _ => True

end Operation

/-- One operation in a history. -/
structure Event (ι : Type) where
  cpu : ι
  operation : Operation
  response : Response

/-- The update an operation is for memory when nothing comes between its load and its store. -/
def Event.update {ι : Type} (e : Event ι) (m : SharedMemory) : SharedMemory :=
  match e.operation, e.response with
  | .storeEx w a modify, .status s =>
    if s = 0 then write m a w.bytes (modify (read 128 m a w.bytes)) else m
  | .store w a value, _ => write m a w.bytes value
  | .atomic op w a operand expected, _ => (rmw op w a operand expected m).1
  | _, _ => m

/-- The machine and what has happened, the latest first. -/
structure Run (ι : Type) where
  memory : SharedMemory
  core : ι → Core
  history : List (Event ι)

/-- The update of the location `w`, `a` that a store-exclusive to it made. -/
def Event.modified {ι : Type} (e : Event ι) (w : Width) (a : U64) : Option (U128 → U128) :=
  match e.operation, e.response with
  | .storeEx w' a' modify, .status s => if w' = w ∧ a' = a ∧ s = 0 then some modify else none
  | _, _ => none

variable {ι : Type} [DecidableEq ι]

/-- Core `i` does `x`. -/
def Run.perform (r : Run ι) (i : ι) (x : Operation) : Run ι :=
  let s := x.run (r.core i, r.memory)
  ⟨s.1.2, Function.update r.core i s.1.1, ⟨i, x, s.2⟩ :: r.history⟩

/-- Any interleaving of any operations, from a memory `m₀` with every monitor disarmed. -/
def machine (ι : Type) [DecidableEq ι] (m₀ : SharedMemory) : System (Run ι) (ι × Operation) where
  init r := r.memory = m₀ ∧ r.history = [] ∧
    ∀ i, (r.core i).monitor.size = 0 ∧ (r.core i).memFault = 0
  step r x r' := r' = r.perform x.1 x.2

/-! ## What an armed monitor stands for -/

/-- The last operation of core `i` on its monitor was a load-exclusive that loaded `v` from `a`. -/
def LastLoadEx (history : List (Event ι)) (i : ι) (w : Width) (a : U64) (v : U128) : Prop :=
  ∃ after before operand left,
    history = after ++ ⟨i, .loadEx w operand left, .observed a v⟩ :: before ∧
      ∀ e ∈ after, e.cpu = i → e.operation.plain

/-- Every load-exclusive of the step keeps its address. -/
def KeepsAddress (r : Run ι) (x : ι × Operation) : Prop := x.2.Keeps (r.core x.1).host

/-- The monitor of core `i` is disarmed, or it holds what its last load-exclusive observed, which
the core's register still holds too. -/
def Armed (r : Run ι) (i : ι) : Prop :=
  (r.core i).memFault = 0 ∧
    ((r.core i).monitor.size = 0 ∨ ∃ w, (r.core i).monitor.size = w.size ∧
      low w.bytes (r.core i).loaded = (r.core i).loaded ∧
      (r.core i).monitor.value = (r.core i).loaded ∧
      LastLoadEx r.history i w (r.core i).monitor.addr (r.core i).loaded)

omit [DecidableEq ι] in
theorem LastLoadEx.cons {history : List (Event ι)} {i : ι} {w : Width} {a : U64} {v : U128}
    (h : LastLoadEx history i w a v) {e : Event ι} (he : e.cpu = i → e.operation.plain) :
    LastLoadEx (e :: history) i w a v := by
  obtain ⟨after, before, operand, left, rfl, hplain⟩ := h
  refine ⟨e :: after, before, operand, left, rfl, fun e' he' => ?_⟩
  rcases List.mem_cons.mp he' with rfl | hmem
  · exact he
  · exact hplain e' hmem

namespace Operation

/-- The status of a store-exclusive and its effect, with the monitor disarmed. -/
theorem run_storeEx (w : Width) (a : U64) (modify : U128 → U128) (s : Core × SharedMemory) :
    (storeEx w a modify).run s =
      if s.1.monitor.admits w a ∧
          read 128 s.2 a w.bytes = low w.bytes s.1.monitor.value then
        (({ s.1 with monitor := s.1.monitor.disarm },
          write s.2 a w.bytes (low w.bytes (modify s.1.loaded))), .status 0)
      else (({ s.1 with monitor := s.1.monitor.disarm }, s.2), .status 1) := by
  simp only [run, AccessPort.emitStoreEx, sharedPort, rmw_cas, AccessPort.sameAt, low_read,
    beq_iff_eq]
  by_cases hadmits : s.1.monitor.admits w a
  · by_cases hvalue : read 128 s.2 a w.bytes = low w.bytes s.1.monitor.value
    · rw [if_pos hadmits, if_pos hvalue, if_pos hvalue, if_pos ⟨hadmits, hvalue⟩]
    · rw [if_pos hadmits, if_neg hvalue, if_neg hvalue, if_neg fun h => hvalue h.2]
  · rw [if_neg hadmits, if_neg fun h => hadmits h.1]

/-- Only the operations on the monitor change more of a core than its host registers. -/
theorem run_plain {x : Operation} (h : x.plain) (s : Core × SharedMemory) :
    ∃ host, (x.run s).1.1 = { s.1 with host } := by
  cases x with
  | loadEx w operand left => exact h.elim
  | storeEx w a modify => exact h.elim
  | clrex => exact h.elim
  | load w a => exact ⟨s.1.host, rfl⟩
  | store w a value => exact ⟨s.1.host, rfl⟩
  | atomic op w a operand expected => exact ⟨s.1.host, rfl⟩
  | host f => exact ⟨f s.1.host, rfl⟩

/-- A load-exclusive arms the monitor with what its operand reads as in the end. -/
theorem run_loadEx (w : Width) (operand : Loc) (left : Option (Nat → U128))
    {s : Core × SharedMemory} (hfault : s.1.memFault = 0) :
    (loadEx w operand left).run s =
      (({ s.1 with
          monitor := ⟨operand.read64 (s.1.host.afterCall left), w.size,
            read 128 s.2 (operand.read64 s.1.host) w.bytes⟩
          host := s.1.host.afterCall left
          loaded := read 128 s.2 (operand.read64 s.1.host) w.bytes }, s.2),
        .observed (operand.read64 s.1.host)
          (read 128 s.2 (operand.read64 s.1.host) w.bytes)) := by
  simp only [run, AccessPort.emitLoadEx, sharedPort, hfault, if_true]

end Operation

theorem Armed.perform {r : Run ι} (h : ∀ i, Armed r i) (i : ι) (x : Operation)
    (hkeeps : KeepsAddress r (i, x)) : ∀ j, Armed (r.perform i x) j := by
  intro j
  by_cases hj : j = i
  case neg =>
    obtain ⟨hfault, hmonitor⟩ := h j
    have hcore : (r.perform i x).core j = r.core j := Function.update_of_ne hj _ _
    rw [Armed, hcore]
    refine ⟨hfault, hmonitor.imp_right ?_⟩
    rintro ⟨w, hsize, hlow, hvalue, hlast⟩
    exact ⟨w, hsize, hlow, hvalue, hlast.cons fun he => absurd he.symm hj⟩
  case pos =>
    subst hj
    obtain ⟨hfault, hmonitor⟩ := h j
    have hcore : (r.perform j x).core j = (x.run (r.core j, r.memory)).1.1 :=
      Function.update_self _ _ _
    rw [Armed, hcore]
    by_cases hx : x.plain
    · obtain ⟨host, hhost⟩ := Operation.run_plain hx (r.core j, r.memory)
      rw [hhost]
      refine ⟨hfault, hmonitor.imp_right ?_⟩
      rintro ⟨w, hsize, hlow, hvalue, hlast⟩
      exact ⟨w, hsize, hlow, hvalue, hlast.cons fun _ => hx⟩
    cases x with
    | loadEx w operand left =>
      have hrun := Operation.run_loadEx w operand left (s := (r.core j, r.memory)) hfault
      have haddr : operand.read64 ((r.core j).host.afterCall left) =
          operand.read64 (r.core j).host := hkeeps
      rw [haddr] at hrun
      refine ⟨by rw [hrun]; exact hfault, Or.inr ⟨w, ?_⟩⟩
      rw [hrun]
      refine ⟨rfl, low_read, rfl, [], r.history, operand, left, ?_, fun e he => by cases he⟩
      simp only [Run.perform, hrun, List.nil_append]
    | storeEx w a modify =>
      rw [Operation.run_storeEx]
      split
      · exact ⟨hfault, Or.inl rfl⟩
      · exact ⟨hfault, Or.inl rfl⟩
    | clrex => exact ⟨hfault, Or.inl rfl⟩
    | load w a => exact absurd trivial hx
    | store w a value => exact absurd trivial hx
    | atomic op w a operand expected => exact absurd trivial hx
    | host f => exact absurd trivial hx

variable {m₀ : SharedMemory}

theorem Reachable.armed {r : Run ι} (h : ((machine ι m₀).guarded KeepsAddress).Reachable r) (i : ι) :
    Armed r i := by
  refine h.invariant (P := fun r => ∀ i, Armed r i) ?_ ?_ i
  · rintro r ⟨-, -, hcores⟩ i
    exact ⟨(hcores i).2, Or.inl (hcores i).1⟩
  · rintro r ⟨i, x⟩ _ - hr ⟨hkeeps, rfl⟩
    exact Armed.perform hr i x hkeeps

/-! ## Store-exclusives -/

omit [DecidableEq ι] in
/-- A store-exclusive that succeeds finds in memory what the register was loaded with. -/
theorem Armed.loaded {r : Run ι} {i : ι} {w : Width} {a : U64} (h : Armed r i)
    (hadmits : (r.core i).monitor.admits w a)
    (hvalue : read 128 r.memory a w.bytes = low w.bytes (r.core i).monitor.value) :
    (r.core i).loaded = read 128 r.memory a w.bytes ∧
      LastLoadEx r.history i w a (r.core i).loaded := by
  rw [Monitor.admits, Bool.and_eq_true, beq_iff_eq, beq_iff_eq] at hadmits
  obtain ⟨haddr, hsize⟩ := hadmits
  rcases h.2 with hdisarmed | ⟨w', hsize', hlow, hloaded, hlast⟩
  · exact absurd (hsize.symm.trans hdisarmed) w.size_ne_zero
  obtain rfl : w' = w := Width.size_inj (hsize'.symm.trans hsize)
  rw [haddr] at hlast
  exact ⟨by rw [hvalue, hloaded, hlow], hlast⟩

/-- What one operation does to memory is its update. -/
theorem Armed.update {r : Run ι} {i : ι} (h : Armed r i) (x : Operation) :
    (r.perform i x).memory =
      Event.update ⟨i, x, (x.run (r.core i, r.memory)).2⟩ r.memory := by
  cases x with
  | storeEx w a modify =>
    rw [Run.perform, Operation.run_storeEx]
    by_cases hs : (r.core i).monitor.admits w a ∧
        read 128 r.memory a w.bytes = low w.bytes (r.core i).monitor.value
    · have hloaded := (h.loaded hs.1 hs.2).1
      rw [if_pos hs]
      simp only [Event.update, if_true, hloaded, write_low]
    · rw [if_neg hs]
      rfl
  | loadEx w operand left =>
    rw [Run.perform, Operation.run_loadEx w operand left (s := (r.core i, r.memory)) h.1]
    rfl
  | clrex => rfl
  | load w a => rfl
  | store w a value => rfl
  | atomic op w a operand expected => rfl
  | host f => rfl

/-- Memory is what the operations make of it when each is taken as one atomic step. -/
theorem Reachable.memory_eq {r : Run ι} (h : ((machine ι m₀).guarded KeepsAddress).Reachable r) :
    r.memory = r.history.foldr Event.update m₀ := by
  refine h.invariant (P := fun r => r.memory = r.history.foldr Event.update m₀) ?_ ?_
  · rintro r ⟨hmemory, hhistory, -⟩
    rw [hmemory, hhistory]
    rfl
  · rintro r ⟨i, x⟩ _ hreach hr ⟨-, rfl⟩
    exact ((Reachable.armed hreach i).update x).trans (congrArg _ hr)

omit [DecidableEq ι] in
/-- At a location that only store-exclusives of its own width store to, an update applies the
modification of the store-exclusive. -/
theorem Event.read_update {e : Event ι} {w : Width} {a : U64} (m : SharedMemory)
    (h : ∀ w' a', e.operation.target = some (w', a') →
      Apart a w.bytes a' w'.bytes ∨ ∃ modify, e.operation = .storeEx w a modify) :
    read 128 (e.update m) a w.bytes =
      (e.modified w a).elim (read 128 m a w.bytes)
        fun modify => low w.bytes (modify (read 128 m a w.bytes)) := by
  obtain ⟨i, x, response⟩ := e
  have hnone {w' : Width} {a' : U64} {v : U128} (htarget : x.target = some (w', a'))
      (hx : ∀ modify, x ≠ .storeEx w a modify) :
      read 128 (write m a' w'.bytes v) a w.bytes = read 128 m a w.bytes := by
    rcases h w' a' htarget with hapart | ⟨modify, hmodify⟩
    · exact read_write_of_apart hapart
    · exact absurd hmodify (hx modify)
  cases x with
  | storeEx w' a' modify =>
    cases response with
    | status s =>
      by_cases hs : s = 0
      case neg => simp only [Event.update, Event.modified, hs, and_false, if_false, Option.elim_none]
      by_cases hself : w' = w ∧ a' = a
      · obtain ⟨rfl, rfl⟩ := hself
        simp only [Event.update, Event.modified, hs, and_self, if_true, Option.elim_some]
        exact read_write w'.bytes_le
      · have hother : ¬ (w' = w ∧ a' = a ∧ s = 0) := fun hw => hself ⟨hw.1, hw.2.1⟩
        simp only [Event.update, Event.modified, if_neg hother]
        rw [if_pos hs, hnone rfl fun modify' heq => ?_]
        · rfl
        · injection heq with hw ha
          exact hself ⟨hw, ha⟩
    | done => rfl
    | value v => rfl
    | observed a' v => rfl
  | store w' a' value => exact hnone rfl (by simp)
  | atomic op w' a' operand expected =>
    simp only [Event.update, rmw, Event.modified, Option.elim_none]
    cases op.apply w'.size (read 128 m a' w'.bytes) operand expected with
    | none => rfl
    | some new => exact hnone rfl (by simp)
  | loadEx w' operand left => rfl
  | clrex => rfl
  | load w' a' => rfl
  | host f => rfl

omit [DecidableEq ι] in
theorem read_updates {history : List (Event ι)} {w : Width} {a : U64}
    (h : ∀ e ∈ history, ∀ w' a', e.operation.target = some (w', a') →
      Apart a w.bytes a' w'.bytes ∨ ∃ modify, e.operation = .storeEx w a modify) :
    read 128 (history.foldr Event.update m₀) a w.bytes =
      (history.filterMap fun e => e.modified w a).foldr
        (fun modify v => low w.bytes (modify v)) (read 128 m₀ a w.bytes) := by
  induction history with
  | nil => rfl
  | cons e history ih =>
    have htail := ih fun e' he' => h e' (List.mem_cons_of_mem _ he')
    rw [List.foldr_cons, Event.read_update _ (h e List.mem_cons_self), htail, List.filterMap_cons]
    cases e.modified w a <;> rfl

/-- **The exclusive protocol, and no update is lost**, in every run whose load-exclusives keep their
addresses.  A store-exclusive that returns 0 follows a load-exclusive of the same core, address and
width with nothing of that core on the monitor in between, memory held the value it observed and
holds the new one now; one that returns 1 leaves memory alone; the monitor is disarmed either way.
So memory is what the stores, the atomics and the store-exclusives that succeeded make of it when
each is one atomic step, and a location that retry loops alone store to has every modification that
succeeded applied, in order. -/
theorem exclusive_protocol {r : Run ι} (h : ((machine ι m₀).guarded KeepsAddress).Reachable r) :
    (∀ i w a modify r', (machine ι m₀).step r (i, .storeEx w a modify) r' →
      ∃ s, r'.history = ⟨i, .storeEx w a modify, .status s⟩ :: r.history ∧
        (s = 0 ∨ s = 1) ∧ (r'.core i).monitor.size = 0 ∧
        (s = 0 → LastLoadEx r.history i w a (r.core i).loaded ∧
          read 128 r.memory a w.bytes = (r.core i).loaded ∧
          r'.memory = write r.memory a w.bytes (modify (r.core i).loaded) ∧
          read 128 r'.memory a w.bytes = low w.bytes (modify (r.core i).loaded)) ∧
        (s = 1 → r'.memory = r.memory)) ∧
    r.memory = r.history.foldr Event.update m₀ ∧
    ∀ w a,
      (∀ e ∈ r.history, ∀ w' a', e.operation.target = some (w', a') →
        Apart a w.bytes a' w'.bytes ∨ ∃ modify, e.operation = .storeEx w a modify) →
      read 128 r.memory a w.bytes =
        (r.history.filterMap fun e => e.modified w a).foldr
          (fun modify v => low w.bytes (modify v)) (read 128 m₀ a w.bytes) := by
  refine ⟨?_, Reachable.memory_eq h, ?_⟩
  · rintro i w a modify _ rfl
    have hcore : (r.perform i (.storeEx w a modify)).core i =
        ((Operation.storeEx w a modify).run (r.core i, r.memory)).1.1 :=
      Function.update_self _ _ _
    rw [hcore]
    simp only [Run.perform, Operation.run_storeEx]
    by_cases hs : (r.core i).monitor.admits w a ∧
        read 128 r.memory a w.bytes = low w.bytes (r.core i).monitor.value
    · obtain ⟨hloaded, hlast⟩ := (Reachable.armed h i).loaded hs.1 hs.2
      rw [if_pos hs]
      refine ⟨0, rfl, Or.inl rfl, rfl, fun _ => ⟨hlast, hloaded.symm, ?_, ?_⟩, ?_⟩
      · exact write_low
      · rw [write_low]
        exact read_write w.bytes_le
      · exact fun h0 => absurd h0 (by decide)
    · rw [if_neg hs]
      refine ⟨1, rfl, Or.inr rfl, rfl, ?_, fun _ => rfl⟩
      exact fun h1 => absurd h1 (by decide)
  · intro w a hloops
    rw [Reachable.memory_eq h]
    exact read_updates hloops

/-- Two cores load a byte, the second stores first, and the first has to repeat its loop.  The
address is in `rbx`, and the callback clears all vector registers. -/
def race : List (Bool × Operation) :=
  [(false, .loadEx .b1 (.reg 3) (some fun _ => 0)), (true, .loadEx .b1 (.reg 3) none),
    (true, .storeEx .b1 0 (· + 1)), (false, .storeEx .b1 0 (· + 1)),
    (false, .loadEx .b1 (.reg 3) (some fun _ => 0)), (false, .storeEx .b1 0 (· + 1))]

theorem reachable_performAll {r : Run ι} (h : ((machine ι m₀).guarded KeepsAddress).Reachable r)
    (xs : List (ι × Operation)) (hkeeps : ∀ x ∈ xs, ∀ host, x.2.Keeps host) :
    ((machine ι m₀).guarded KeepsAddress).Reachable (xs.foldl (fun r x => r.perform x.1 x.2) r) := by
  induction xs generalizing r with
  | nil => exact h
  | cons x xs ih =>
    exact ih (h.step x ⟨hkeeps x List.mem_cons_self _, rfl⟩)
      fun y hy => hkeeps y (List.mem_cons_of_mem _ hy)

/-- Zeroed memory, contexts and registers. -/
def idle : Run Bool :=
  ⟨fun _ => 0, fun _ => ⟨⟨0, 0, 0⟩, 0, ⟨fun _ => 0, fun _ => 0, fun _ => 0⟩, 0⟩, []⟩

theorem exclusive_protocol_race :
    let r := race.foldl (fun r x => r.perform x.1 x.2) idle
    r.memory = r.history.foldr Event.update (fun _ => 0) ∧ read 128 r.memory 0 1 = 2 := by
  have hidle : ((machine Bool fun _ => 0).guarded KeepsAddress).Reachable idle :=
    .init ⟨rfl, rfl, fun _ => ⟨rfl, rfl⟩⟩
  have hkeeps : ∀ x ∈ race, ∀ host, x.2.Keeps host := by
    intro x hx host
    simp only [race, List.mem_cons, List.not_mem_nil, or_false] at hx
    rcases hx with rfl | rfl | rfl | rfl | rfl | rfl <;> first | rfl | trivial
  exact ⟨(exclusive_protocol (reachable_performAll hidle race hkeeps)).2.1, by decide⟩

/-! ## An address that the callback overwrites -/

/-- What the optimizer leaves of `ADD X5,X0,X1; ADD X6,X2,X3; LDXR X12,[X4]; ADD X7,X0,X1;
ADD X8,X2,X3`: four values are kept across the load-exclusive, and its address dies there. -/
def dyingAddressBlock : Block :=
  let readX (r : U64) := (Armlet.new .getX .u64).withImm r
  let writeX (r : U64) (v : ValueRef) := ((Armlet.new .setX .void).withArgs [v]).withImm r
  (Block.new 0x1000).pushAll
    [readX 0, readX 1, (Armlet.new .add64 .u64).withArgs [1, 2], writeX 5 3,
      readX 2, readX 3, (Armlet.new .add64 .u64).withArgs [5, 6], writeX 6 7,
      readX 4, (Armlet.new .loadEx64 .u64).withArgs [9], writeX 12 10,
      (Armlet.new .add64 .u64).withArgs [1, 2], writeX 7 12,
      (Armlet.new .add64 .u64).withArgs [5, 6], writeX 8 14]

/-- Where the allocator puts the address: the four general registers are taken, and no vector
register is clobbered inside the range, whose last node is the load-exclusive. -/
def dyingAddress : Loc :=
  (linearScan ⟨true, true⟩ dyingAddressBlock (computeLiveRangesWith dyingAddressBlock [])
    allocatableGprs).locs 9

set_option maxRecDepth 10000 in
theorem dyingAddress_eq : dyingAddress = .xmm 6 := by
  decide +kernel

/-- `idle` with the address 0x1000 in `xmm6`. -/
def addressInXmm : Run Bool :=
  ⟨fun _ => 0, fun _ => ⟨⟨0, 0, 0⟩, 0, ⟨fun _ => 0, fun _ => 0x1000, fun _ => 0⟩, 0⟩, []⟩

/-- The core loads exclusively from 0x1000 through a callback that uses the vector registers itself,
and then stores exclusively to what the callback left there. -/
theorem clobbered_breaks_protocol :
    let loadEx : Operation := .loadEx .b8 dyingAddress (some fun _ => 0x2000)
    let storeEx : Operation := .storeEx .b8 0x2000 (· + 1)
    let r := addressInXmm.perform false loadEx
    (machine Bool fun _ => 0).Reachable r ∧
      r.history = [⟨false, loadEx, .observed 0x1000 0⟩] ∧
      (∃ r', (machine Bool fun _ => 0).step r (false, storeEx) r' ∧
        r'.history = ⟨false, storeEx, .status 0⟩ :: r.history ∧ read 128 r'.memory 0x2000 8 = 1) ∧
      ∀ v, ¬ LastLoadEx r.history false .b8 0x2000 v := by
  have hstart : (machine Bool fun _ => 0).Reachable addressInXmm :=
    .init ⟨rfl, rfl, fun _ => ⟨rfl, rfl⟩⟩
  simp only [dyingAddress_eq]
  refine ⟨hstart.step (false, _) rfl, rfl, ⟨_, rfl, rfl, by decide⟩, ?_⟩
  rintro v ⟨after, before, operand, left, hhistory, -⟩
  have hmem : (⟨false, .loadEx .b8 operand left, .observed 0x2000 v⟩ : Event Bool) ∈
      [⟨false, .loadEx .b8 (.xmm 6) (some fun _ => 0x2000), .observed 0x1000 0⟩] := by
    have hmem := List.mem_append_right after (List.mem_cons_self (l := before)
      (a := (⟨false, .loadEx .b8 operand left, .observed 0x2000 v⟩ : Event Bool)))
    rwa [← hhistory] at hmem
  simp at hmem

end Monitored

end Rustarmic
