import Rustarmic.Backend.Fastmem

/-!
# Atomics on host memory

The locked instructions `emit_atomic_core` places behind the fastmem guard, on the registers they
use.  Other threads may change host memory between two of them, and in direct mode each of them may
fault, upon which the slow path runs with the registers as they are.

* `inlineAtomic` — the sequence for each operation; the compare-and-exchange loop is `retryLoop`.
* `inlineAtomic_sound` — it stores what `apply` stores, or leaves memory and the operands of the
  slow path alone.

The host has an instruction for an addition and for an exchange.  The other operations read the old
value, compute the new one and exchange it if memory still holds the old value, and otherwise try
again.  What memory holds at each pass is up to the other threads, so a run has a list of memories,
one for each pass, and the theorem says that the read-modify-write took place on *one of them*: the
access is one step, and it has a place among the steps of the others.

**Sized registers.**  An instruction on a byte or on two bytes leaves the upper part of its register
alone, and the old value is zero-extended at the end.  In between, operands carry whatever the
guest's register had above, and only the low bits are compared and stored (`sized`).

**Faults.**  The handler of a direct access continues at the slow path, which takes its operands
from the same registers.  So no sequence may have changed them before an instruction that can fault,
and `Kept` is the statement that none has.
-/

set_option autoImplicit false

namespace Rustarmic

open ModularMemory

/-- Host memory as one thread sees it, and the bytes whose access traps: the flag says whether the
access writes. -/
structure Host where
  memory : Mem 64
  faults : Bool → U64 → Bool

/-- Some byte of the access traps. -/
def Host.traps (h : Host) (writes : Bool) (a : U64) (w : Width) : Bool :=
  (List.range w.bytes).any fun i => h.faults writes (a + BitVec.ofNat 64 i)

namespace InlineAtomic

/-! ## Sized registers -/

/-- `al`, `ax`, `eax` or `rax`. -/
def sized (w : Width) (r : U64) : BitVec (8 * w.bytes) := r.setWidth (8 * w.bytes)

/-- Write to `al`, `ax`, `eax` or `rax`: the two short forms keep the other bits. -/
def setSized (w : Width) (r v : U64) : U64 :=
  match w with
  | .b1 => (r &&& ~~~0xFF#64) ||| (v &&& 0xFF#64)
  | .b2 => (r &&& ~~~0xFFFF#64) ||| (v &&& 0xFFFF#64)
  | .b4 => v &&& 0xFFFFFFFF#64
  | .b8 | .b16 => v

/-- Zero-extend the value in `rax`. -/
def zextRax (w : Width) (rax : U64) : U64 :=
  match w with
  | .b1 => rax &&& 0xFF#64
  | .b2 => rax &&& 0xFFFF#64
  | .b4 => rax &&& 0xFFFFFFFF#64
  | .b8 | .b16 => rax

/-! ## The sequences -/

/-- The registers an atomic uses: `scratch1` is the guest address, `arg3` the operand, `r10` the
host address. -/
structure Regs where
  rax : U64
  scratch1 : U64
  arg3 : U64
  r8 : U64
  r10 : U64
  r11 : U64

/-- How an inline atomic comes out: with the old value, at a fault, or still in the retry loop. -/
inductive Outcome where
  | done (rax : U64) (host : Host)
  | divert (regs : Regs) (host : Host)
  | retry (regs : Regs)

/-- `lock cmpxchg [r10], src`: the new memory, the accumulator and `ZF`. -/
def cmpxchgSized (w : Width) (m : Mem 64) (regs : Regs) (src : U64) : Mem 64 × U64 × Bool :=
  let old := read 64 m regs.r10 w.bytes
  if sized w regs.rax = sized w old then (write m regs.r10 w.bytes src, regs.rax, true)
  else (m, setSized w regs.rax old, false)

/-- The new value of the operations that go through a compare-and-exchange. -/
def combine (op : AtomicOp) (w : Width) (rax arg3 : U64) : U64 :=
  match op with
  | .clr => rax &&& ~~~arg3
  | .eor => rax ^^^ arg3
  | .set => rax ||| arg3
  | .smax => if (sized w rax).slt (sized w arg3) then arg3 else rax
  | .smin => if (sized w arg3).slt (sized w rax) then arg3 else rax
  | .umax => if (sized w rax).ult (sized w arg3) then arg3 else rax
  | .umin => if (sized w arg3).ult (sized w rax) then arg3 else rax
  | .add | .swp | .cas => rax

/-- One pass of the loop. -/
def attempt (op : AtomicOp) (w : Width) (direct : Bool) (host : Host) (regs : Regs) : Outcome :=
  let regs := { regs with
    r8 := if op = .clr then ~~~regs.arg3 else regs.r8
    r11 := combine op w regs.rax regs.arg3 }
  if direct && host.traps true regs.r10 w then .divert regs host
  else
    match cmpxchgSized w host.memory regs regs.r11 with
    | (memory, rax, true) => .done (zextRax w rax) { host with memory }
    | (_, rax, false) => .retry { regs with rax }

/-- The loop: its first pass sees `host`, and each later one what the other threads have made of it
by then. -/
def retryLoop (op : AtomicOp) (w : Width) (direct : Bool) :
    List Host → Host → Regs → Outcome
  | [], host, regs => attempt op w direct host regs
  | next :: others, host, regs =>
    match attempt op w direct host regs with
    | .retry regs => retryLoop op w direct others next regs
    | outcome => outcome

/-- The inline part of `emit_atomic_core`, with what the other threads make of host memory between
the load and each pass of the loop. -/
def inlineAtomic (op : AtomicOp) (w : Width) (direct : Bool) (others : List Host) (host : Host)
    (regs : Regs) : Outcome :=
  match op with
  | .add =>
    let regs := { regs with rax := regs.arg3 }
    if direct && host.traps true regs.r10 w then .divert regs host
    else
      let old := read 64 host.memory regs.r10 w.bytes
      .done (zextRax w (setSized w regs.rax old))
        { host with memory := write host.memory regs.r10 w.bytes (old + regs.rax) }
  | .swp =>
    let regs := { regs with rax := regs.arg3 }
    if direct && host.traps true regs.r10 w then .divert regs host
    else
      let old := read 64 host.memory regs.r10 w.bytes
      .done (zextRax w (setSized w regs.rax old))
        { host with memory := write host.memory regs.r10 w.bytes regs.rax }
  | .cas =>
    let regs := { regs with rax := regs.r11 }
    if direct && host.traps true regs.r10 w then .divert regs host
    else
      let x := cmpxchgSized w host.memory regs regs.arg3
      .done (zextRax w x.2.1) { host with memory := x.1 }
  | _ =>
    if direct && host.traps false regs.r10 w then .divert regs host
    else
      let regs := { regs with rax := read 64 host.memory regs.r10 w.bytes }
      retryLoop op w direct others.tail (others.headD host) regs

/-! ## `apply` on the bits of an access -/

end InlineAtomic

/-- What an atomic operation makes of two values of the width of the access. -/
def AtomicOp.onBits {k : Nat} (op : AtomicOp) (old operand : BitVec k) : BitVec k :=
  match op with
  | .add => old + operand
  | .clr => old &&& ~~~operand
  | .eor => old ^^^ operand
  | .set => old ||| operand
  | .smax => if old.slt operand then operand else old
  | .smin => if operand.slt old then operand else old
  | .umax => if old.ult operand then operand else old
  | .umin => if operand.ult old then operand else old
  | .swp | .cas => operand

theorem Width.bits_le (w : Width) : 8 * w.bytes ≤ 128 := by
  cases w <;> decide

theorem Width.setWidth_low (w : Width) (x : U128) :
    (low w.bytes x).setWidth (8 * w.bytes) = x.setWidth (8 * w.bytes) := by
  rw [low, BitVec.setWidth_setWidth_of_le _ w.bits_le, BitVec.setWidth_eq]

namespace AtomicOp

theorem sext_eq (w : Width) (x : U128) :
    sext x w.size = (x.setWidth (8 * w.bytes)).signExtend 128 := by
  have hsize : w.size.toNat * 8 = 8 * w.bytes := by
    cases w <;> rfl
  have hle := w.bits_le
  have hpos := w.bytes_pos
  rw [sext, hsize]
  refine BitVec.eq_of_getLsbD_eq fun i hi => ?_
  have hlast : 128 - 1 - (128 - 8 * w.bytes) = 8 * w.bytes - 1 := by omega
  have hback : 128 - 8 * w.bytes + i - (128 - 8 * w.bytes) = i := by omega
  rw [BitVec.getLsbD_sshiftRight, BitVec.getLsbD_signExtend, BitVec.getLsbD_setWidth,
    BitVec.getLsbD_shiftLeft, BitVec.msb_eq_getLsbD_last, BitVec.msb_eq_getLsbD_last,
    BitVec.getLsbD_setWidth, BitVec.getLsbD_shiftLeft, hlast, hback]
  have hnot : ¬ 128 - 8 * w.bytes + i < 128 - 8 * w.bytes := by omega
  have hi' : ¬ 128 ≤ i := by omega
  by_cases h : i < 8 * w.bytes
  · have hin : 128 - 8 * w.bytes + i < 128 := by omega
    simp only [h, hin, hi, hi', hnot, decide_true, decide_false, Bool.not_false, Bool.true_and,
      if_true]
  · have hin : ¬ 128 - 8 * w.bytes + i < 128 := by omega
    have hsign : ¬ 128 - 1 < 128 - 8 * w.bytes := by omega
    have hlt : 8 * w.bytes - 1 < 8 * w.bytes := by omega
    simp only [h, hin, hi, hi', hsign, hlt, decide_true, decide_false, Bool.not_false,
      Bool.true_and, if_false, Nat.reduceSub, Nat.reduceLT]

theorem apply_eq {op : AtomicOp} (hop : op ≠ .cas) (w : Width) (old operand expected : U128) :
    op.apply w.size old operand expected =
      some ((op.onBits (old.setWidth (8 * w.bytes))
        (operand.setWidth (8 * w.bytes))).setWidth 128) := by
  have hle := w.bits_le
  have hcut {x : U128} {y : BitVec (8 * w.bytes)} (h : x.setWidth (8 * w.bytes) = y) :
      some (low w.bytes x) = some (y.setWidth 128) := by
    rw [low, h]
  have hsle (x y : U128) : (sext (low w.bytes x) w.size).sle (sext (low w.bytes y) w.size) =
      !(y.setWidth (8 * w.bytes)).slt (x.setWidth (8 * w.bytes)) := by
    rw [sext_eq, sext_eq, w.setWidth_low, w.setWidth_low, BitVec.sle, BitVec.slt,
      BitVec.toInt_signExtend_of_le hle, BitVec.toInt_signExtend_of_le hle, Bool.eq_iff_iff]
    simp
  have hule (x y : U128) : low w.bytes x ≤ low w.bytes y ↔
      (!(y.setWidth (8 * w.bytes)).ult (x.setWidth (8 * w.bytes))) = true := by
    rw [low, low, BitVec.le_def, BitVec.toNat_setWidth_of_le hle, BitVec.toNat_setWidth_of_le hle,
      BitVec.ult]
    simp
  have hif {p : Bool} {x y : U128} : (if (!p) = true then x else y).setWidth (8 * w.bytes) =
      if p then y.setWidth (8 * w.bytes) else x.setWidth (8 * w.bytes) := by
    cases p <;> rfl
  simp only [apply, Width.and_mask]
  cases op with
  | add => exact hcut (by rw [BitVec.setWidth_add _ _ hle, w.setWidth_low, w.setWidth_low]; rfl)
  | clr =>
    refine hcut ?_
    rw [BitVec.setWidth_and, BitVec.setWidth_not hle, w.setWidth_low, w.setWidth_low]
    rfl
  | eor => exact hcut (by rw [BitVec.setWidth_xor, w.setWidth_low, w.setWidth_low]; rfl)
  | set => exact hcut (by rw [BitVec.setWidth_or, w.setWidth_low, w.setWidth_low]; rfl)
  | smax => exact hcut (by rw [hsle, hif, w.setWidth_low, w.setWidth_low]; rfl)
  | smin => exact hcut (by rw [hsle, hif, w.setWidth_low, w.setWidth_low]; rfl)
  | umax => exact hcut (by simp only [hule]; rw [hif, w.setWidth_low, w.setWidth_low]; rfl)
  | umin => exact hcut (by simp only [hule]; rw [hif, w.setWidth_low, w.setWidth_low]; rfl)
  | swp => exact hcut (by rw [w.setWidth_low]; rfl)
  | cas => exact absurd rfl hop

end AtomicOp

theorem rmw_eq {op : AtomicOp} (hop : op ≠ .cas) (w : Width) (a : U64) (operand expected : U128)
    (m : SharedMemory) :
    rmw op w a operand expected m =
      (write m a w.bytes (op.onBits (read (8 * w.bytes) m a w.bytes)
        (operand.setWidth (8 * w.bytes))), read 128 m a w.bytes) := by
  have hle := w.bits_le
  simp only [rmw, AtomicOp.apply_eq hop]
  rw [setWidth_read (by omega)]
  congr 1
  refine write_congr ?_
  rw [BitVec.setWidth_setWidth_of_le _ hle, BitVec.setWidth_eq]

namespace InlineAtomic

/-! ## The sequences store what `apply` stores -/

variable {w : Width}

theorem sized_setSized (hw : w ≠ .b16) (r v : U64) : sized w (setSized w r v) = sized w v := by
  have key {k : Nat} {mask : U64} (hin : mask.setWidth k = BitVec.allOnes k)
      (hout : (~~~mask).setWidth k = 0) :
      ((r &&& ~~~mask) ||| (v &&& mask)).setWidth k = v.setWidth k := by
    rw [BitVec.setWidth_or, BitVec.setWidth_and, BitVec.setWidth_and, hin, hout, BitVec.and_allOnes]
    simp
  cases w with
  | b1 => exact key rfl rfl
  | b2 => exact key rfl rfl
  | b4 =>
    have hin : (0xFFFFFFFF#64).setWidth (8 * Width.b4.bytes) = BitVec.allOnes _ := rfl
    rw [sized, setSized, BitVec.setWidth_and, hin, BitVec.and_allOnes]
    rfl
  | b8 => rfl
  | b16 => exact absurd rfl hw

theorem zextRax_eq (hw : w ≠ .b16) (rax : U64) : zextRax w rax = (sized w rax).setWidth 64 := by
  have key {n : Nat} {mask : U64} (h : mask.toNat = 2 ^ n - 1) :
      rax &&& mask = (rax.setWidth n).setWidth 64 := by
    refine BitVec.eq_of_toNat_eq ?_
    rw [BitVec.toNat_and, h, Nat.and_two_pow_sub_one_eq_mod, BitVec.toNat_setWidth,
      BitVec.toNat_setWidth]
    have := Nat.mod_le rax.toNat (2 ^ n)
    omega
  cases w with
  | b1 => exact key rfl
  | b2 => exact key rfl
  | b4 => exact key rfl
  | b8 => simp [zextRax, sized, Width.bytes]
  | b16 => exact absurd rfl hw

theorem sized_combine {op : AtomicOp} (hw : w ≠ .b16) (h : op ≠ .add ∧ op ≠ .swp ∧ op ≠ .cas)
    (rax arg3 : U64) :
    sized w (combine op w rax arg3) = op.onBits (sized w rax) (sized w arg3) := by
  have hle : 8 * w.bytes ≤ 64 := by
    cases w <;> first | decide | exact absurd rfl hw
  have hif {p : Bool} {x y : U64} : sized w (if p then x else y) =
      if p then sized w x else sized w y := by
    cases p <;> rfl
  cases op with
  | clr => simp only [combine, sized, AtomicOp.onBits, BitVec.setWidth_and, BitVec.setWidth_not hle]
  | eor => simp only [combine, sized, AtomicOp.onBits, BitVec.setWidth_xor]
  | set => simp only [combine, sized, AtomicOp.onBits, BitVec.setWidth_or]
  | smax | smin | umax | umin => exact hif
  | add => exact absurd rfl h.1
  | swp => exact absurd rfl h.2.1
  | cas => exact absurd rfl h.2.2

/-- The operands of the slow path are where they were. -/
structure Kept (op : AtomicOp) (regs regs' : Regs) : Prop where
  scratch1_eq : regs'.scratch1 = regs.scratch1
  arg3_eq : regs'.arg3 = regs.arg3
  r11_eq : op = .cas → regs'.r11 = regs.r11

/-- The read-modify-write took place on `seen`, which leaves `host` and the old value in `rax`. -/
structure Stored (op : AtomicOp) (w : Width) (regs : Regs) (seen : Host) (rax : U64) (host : Host) :
    Prop where
  host_eq : host = { seen with
    memory := (rmw op w regs.r10 (regs.arg3.setWidth 128) (regs.r11.setWidth 128) seen.memory).1 }
  rax_eq : rax.setWidth 128 =
    (rmw op w regs.r10 (regs.arg3.setWidth 128) (regs.r11.setWidth 128) seen.memory).2

/-- What an outcome promises when the access could see the states `seen`. -/
def Outcome.Sound (op : AtomicOp) (w : Width) (regs : Regs) (seen : List Host) : Outcome → Prop
  | .done rax host => ∃ h ∈ seen, Stored op w regs h rax host
  | .divert regs' host => host ∈ seen ∧ Kept op regs regs'
  | .retry _ => True

theorem setWidth_sized (hle : 8 * w.bytes ≤ 64) (x : U64) :
    (x.setWidth 128).setWidth (8 * w.bytes) = sized w x :=
  BitVec.setWidth_setWidth_of_le _ (by omega)

theorem old_eq (hw : w ≠ .b16) {m : Mem 64} {a rax : U64}
    (h : sized w rax = sized w (read 64 m a w.bytes)) :
    (zextRax w rax).setWidth 128 = read 128 m a w.bytes := by
  have hle : 8 * w.bytes ≤ 64 := by
    cases w <;> first | decide | exact absurd rfl hw
  have hread : (sized w (read 64 m a w.bytes)).setWidth 64 = read 64 m a w.bytes := low_read
  rw [zextRax_eq hw, h, hread, setWidth_read (by omega)]

/-- A write of a register whose low bits are those of the result. -/
theorem stored_of_sized (hw : w ≠ .b16) {op : AtomicOp} (hop : op ≠ .cas) {regs : Regs}
    {host : Host} {rax x : U64}
    (hrax : sized w rax = sized w (read 64 host.memory regs.r10 w.bytes))
    (hx : sized w x = op.onBits (sized w (read 64 host.memory regs.r10 w.bytes))
      (sized w regs.arg3)) :
    Stored op w regs host (zextRax w rax)
      { host with memory := write host.memory regs.r10 w.bytes x } := by
  have hle : 8 * w.bytes ≤ 64 := by
    cases w <;> first | decide | exact absurd rfl hw
  have hread : sized w (read 64 host.memory regs.r10 w.bytes) =
      read (8 * w.bytes) host.memory regs.r10 w.bytes := setWidth_read (by omega)
  constructor
  · rw [rmw_eq hop, setWidth_sized hle]
    have hwrite : write host.memory regs.r10 w.bytes x = write host.memory regs.r10 w.bytes
        (op.onBits (read (8 * w.bytes) host.memory regs.r10 w.bytes) (sized w regs.arg3)) := by
      refine write_congr ?_
      rw [← hread, ← hx, BitVec.setWidth_eq]
      rfl
    rw [hwrite]
  · rw [rmw_eq hop, old_eq hw hrax]

theorem attempt_sound (hw : w ≠ .b16) {op : AtomicOp} (hop : op ≠ .add ∧ op ≠ .swp ∧ op ≠ .cas)
    (direct : Bool) (host : Host) (regs : Regs) :
    (attempt op w direct host regs).Sound op w regs [host] ∧
      ∀ regs', attempt op w direct host regs = .retry regs' →
        regs'.scratch1 = regs.scratch1 ∧ regs'.arg3 = regs.arg3 ∧ regs'.r10 = regs.r10 := by
  rw [attempt]
  by_cases htrap : (direct && host.traps true regs.r10 w) = true
  · rw [if_pos htrap]
    exact ⟨⟨List.mem_singleton_self _, rfl, rfl, fun h => absurd h hop.2.2⟩, fun _ h => by cases h⟩
  rw [if_neg htrap]
  by_cases heq : sized w regs.rax = sized w (read 64 host.memory regs.r10 w.bytes)
  · simp only [cmpxchgSized, if_pos heq]
    refine ⟨⟨host, List.mem_singleton_self _, stored_of_sized hw hop.2.2 heq ?_⟩,
      fun _ h => by cases h⟩
    rw [sized_combine hw hop, heq]
  · simp only [cmpxchgSized, if_neg heq]
    refine ⟨trivial, ?_⟩
    rintro _ ⟨⟩
    exact ⟨rfl, rfl, rfl⟩

theorem Outcome.Sound.mono {op : AtomicOp} {regs : Regs} {seen seen' : List Host} {o : Outcome}
    (h : o.Sound op w regs seen) (hsub : ∀ s ∈ seen, s ∈ seen') : o.Sound op w regs seen' := by
  cases o with
  | done rax host =>
    obtain ⟨s, hs, hstored⟩ := h
    exact ⟨s, hsub s hs, hstored⟩
  | divert regs' host => exact ⟨hsub _ h.1, h.2⟩
  | retry regs' => trivial

/-- A later pass starts from the operands of the first. -/
theorem Outcome.Sound.of_retry {op : AtomicOp} (hop : op ≠ .cas) (regs : Regs) {regs' : Regs}
    {seen : List Host} {o : Outcome} (h : o.Sound op w regs' seen)
    (hregs : regs'.scratch1 = regs.scratch1 ∧ regs'.arg3 = regs.arg3 ∧ regs'.r10 = regs.r10) :
    o.Sound op w regs seen := by
  obtain ⟨h1, h2, h3⟩ := hregs
  cases o with
  | done rax host =>
    obtain ⟨s, hs, hhost, hrax⟩ := h
    rw [rmw_eq hop, h2, h3] at hhost hrax
    exact ⟨s, hs, by rw [rmw_eq hop]; exact hhost, by rw [rmw_eq hop]; exact hrax⟩
  | divert regs'' host =>
    obtain ⟨hmem, k1, k2, -⟩ := h
    exact ⟨hmem, k1.trans h1, k2.trans h2, fun h => absurd h hop⟩
  | retry regs'' => trivial

theorem retryLoop_sound (hw : w ≠ .b16) {op : AtomicOp} (hop : op ≠ .add ∧ op ≠ .swp ∧ op ≠ .cas)
    (direct : Bool) (others : List Host) (host : Host) (regs : Regs) :
    (retryLoop op w direct others host regs).Sound op w regs (host :: others) := by
  induction others generalizing host regs with
  | nil => exact (attempt_sound hw hop direct host regs).1
  | cons next others ih =>
    obtain ⟨hsound, hretry⟩ := attempt_sound hw hop direct host regs
    have hfirst : ∀ s ∈ [host], s ∈ host :: next :: others := fun s hs =>
      List.mem_singleton.mp hs ▸ List.mem_cons_self
    rw [retryLoop]
    cases hattempt : attempt op w direct host regs with
    | retry regs' =>
      refine ((ih next regs').of_retry hop.2.2 regs (hretry regs' hattempt)).mono ?_
      exact fun s hs => List.mem_cons_of_mem _ hs
    | done rax host' =>
      rw [hattempt] at hsound
      exact hsound.mono hfirst
    | divert regs' host' =>
      rw [hattempt] at hsound
      exact hsound.mono hfirst

/-- **The inline atomics.**  Whatever the other threads do in between, an inline atomic takes place
at once on one of the states of host memory it sees, storing what `apply` stores and leaving the
old value in `rax`; at a fault it has stored nothing and the slow path finds its operands. -/
theorem inlineAtomic_sound (hw : w ≠ .b16) (op : AtomicOp) (direct : Bool) (others : List Host)
    (host : Host) (regs : Regs) :
    (inlineAtomic op w direct others host regs).Sound op w regs (host :: others) := by
  have hloop (hop : op ≠ .add ∧ op ≠ .swp ∧ op ≠ .cas) : Outcome.Sound op w regs (host :: others)
      (if direct && host.traps false regs.r10 w then .divert regs host
        else retryLoop op w direct others.tail (others.headD host)
          { regs with rax := read 64 host.memory regs.r10 w.bytes }) := by
    split
    · exact ⟨List.mem_cons_self, rfl, rfl, fun _ => rfl⟩
    · have hsound := retryLoop_sound hw hop direct others.tail (others.headD host)
        { regs with rax := read 64 host.memory regs.r10 w.bytes }
      refine (hsound.of_retry hop.2.2 regs ⟨rfl, rfl, rfl⟩).mono ?_
      cases others with
      | nil => exact fun s hs => hs
      | cons next others => exact fun s hs => List.mem_cons_of_mem _ hs
  have hle : 8 * w.bytes ≤ 64 := by
    cases w <;> first | decide | exact absurd rfl hw
  cases op with
  | add =>
    rw [inlineAtomic]
    split
    · exact ⟨List.mem_cons_self, rfl, rfl, fun h => by cases h⟩
    · refine ⟨host, List.mem_cons_self, stored_of_sized hw (by decide) (sized_setSized hw _ _) ?_⟩
      exact BitVec.setWidth_add _ _ hle
  | swp =>
    rw [inlineAtomic]
    split
    · exact ⟨List.mem_cons_self, rfl, rfl, fun h => by cases h⟩
    · exact ⟨host, List.mem_cons_self,
        stored_of_sized hw (by decide) (sized_setSized hw _ _) rfl⟩
  | cas =>
    rw [inlineAtomic]
    split
    · exact ⟨List.mem_cons_self, rfl, rfl, fun _ => rfl⟩
    · have hread : sized w (read 64 host.memory regs.r10 w.bytes) =
          read (8 * w.bytes) host.memory regs.r10 w.bytes := setWidth_read (by omega)
      refine ⟨host, List.mem_cons_self, ?_⟩
      simp only [cmpxchgSized]
      by_cases heq : sized w regs.r11 = sized w (read 64 host.memory regs.r10 w.bytes)
      · have hcompare : read 128 host.memory regs.r10 w.bytes =
            low w.bytes (regs.r11.setWidth 128) := by
          rw [low, setWidth_sized hle, heq, hread, setWidth_read (by omega)]
        rw [if_pos heq]
        constructor
        · rw [rmw_cas, if_pos hcompare, write_low]
          have hwrite : write host.memory regs.r10 w.bytes regs.arg3 =
              write host.memory regs.r10 w.bytes (regs.arg3.setWidth 128) :=
            write_congr (setWidth_sized hle _).symm
          rw [hwrite]
        · rw [rmw_cas]
          exact old_eq hw heq
      · have hcompare : read 128 host.memory regs.r10 w.bytes ≠
            low w.bytes (regs.r11.setWidth 128) := by
          intro h
          have hcut := congrArg (BitVec.setWidth (8 * w.bytes)) h
          rw [setWidth_read (by omega), w.setWidth_low, setWidth_sized hle, ← hread] at hcut
          exact heq hcut.symm
        rw [if_neg heq]
        constructor
        · rw [rmw_cas, if_neg hcompare]
        · rw [rmw_cas]
          exact old_eq hw (sized_setSized hw _ _)
  | clr | eor | set | smax | smin | umax | umin => exact hloop (by decide)

/-- A trap at the first instruction. -/
theorem inlineAtomic_first {op : AtomicOp} {w : Width} {direct : Bool} (others : List Host)
    {host : Host} (regs : Regs)
    (h : (direct && host.traps (op = .add || op = .swp || op = .cas) regs.r10 w) = true) :
    ∃ regs', inlineAtomic op w direct others host regs = .divert regs' host ∧
      Kept op regs regs' := by
  cases op with
  | add => exact ⟨{ regs with rax := regs.arg3 }, if_pos h, rfl, rfl, fun h => by cases h⟩
  | swp => exact ⟨{ regs with rax := regs.arg3 }, if_pos h, rfl, rfl, fun h => by cases h⟩
  | cas => exact ⟨{ regs with rax := regs.r11 }, if_pos h, rfl, rfl, fun _ => rfl⟩
  | clr | eor | set | smax | smin | umax | umin =>
    exact ⟨regs, if_pos h, rfl, rfl, fun _ => rfl⟩

/-- With nobody else at the memory the loop ends with its first pass. -/
theorem inlineAtomic_alone (op : AtomicOp) (w : Width) (direct : Bool) (host : Host) (regs regs' : Regs) :
    inlineAtomic op w direct [] host regs ≠ .retry regs' := by
  have hloop (op : AtomicOp) :
      (if direct && host.traps false regs.r10 w then .divert regs host
        else retryLoop op w direct [] host
          { regs with rax := read 64 host.memory regs.r10 w.bytes }) ≠ Outcome.retry regs' := by
    split
    · simp
    · simp only [retryLoop, attempt, cmpxchgSized, if_true]
      split <;> simp
  cases op with
  | add | swp | cas =>
    rw [inlineAtomic]
    split <;> simp
  | clr | eor | set | smax | smin | umax | umin => exact hloop _

end InlineAtomic

end Rustarmic
