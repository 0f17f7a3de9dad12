import Rustarmic.Frontend.AddSub
import Rustarmic.Guest.Bitfield

/-!
# Translating BFM, SBFM and UBFM

The field is moved down by a shift and a mask, or up by a mask and a shift; the sign is repeated by
two shifts, and the destination is kept with the complement of the mask.

Arithmetic of the translator itself is checked: a shift by 64 or more, or a difference below zero,
stops it.

* `BitfieldInsn.translate` — the translator, with its checks.
* `wp_emitField`, `computes_emitSigned`, `computes_emitInsert` — its parts.
* `BitfieldInsn.translate_exact` — the emitted code is the instruction.

The masks that this translator puts into its nodes depend on two fields of six bits and on the size,
and they are computed while translating, by shifts whose amount can be as large as the word.  In a
debug build such a shift panics, and in a release build it is reduced and gives a wrong mask.  So
the shifts and differences are modelled with their checks (`checkedShl`, `checkedShr`,
`checkedSub`), and that none of them fails is a part of the theorem; `wrapping_shl`, which the
source uses in one place, is not checked but reduces its amount, and the theorem says that this
never matters.

The nodes run on a machine that is stricter than the host as well.  `Armlet.strictStep` has no value
for a shift by the width or more, so that the code is right for a backend that masks the amount and
for one that does not.
-/

set_option autoImplicit false

namespace Rustarmic

open Emitting Interp

/-! ## The translator -/

inductive BitfieldKind where
  | ubfm | sbfm | bfm
  deriving DecidableEq, Repr

/-- The decoder's class of bitfield moves. -/
inductive BitfieldInsn where
  | ubfmRdRnImmrImms (i : U32)
  | sbfmRdRnImmrImms (i : U32)
  | bfmRdRnImmrImms (i : U32)

namespace BitfieldInsn

def fields : BitfieldInsn → U32 × BitfieldKind
  | ubfmRdRnImmrImms i => (i, .ubfm)
  | sbfmRdRnImmrImms i => (i, .sbfm)
  | bfmRdRnImmrImms i => (i, .bfm)

/-- A shift of the translator's own. -/
def checkedShl (x : U64) (k : Nat) : Emit U64 := if k < 64 then pure (x <<< k) else .fail .panic

def checkedShr (x : U64) (k : Nat) : Emit U64 := if k < 64 then pure (x >>> k) else .fail .panic

def checkedSub (a b : Nat) : Emit Nat := if b ≤ a then pure (a - b) else .fail .panic

/-- The mask of the low bits, which may be all of them. -/
def lowMask (bitsN width : Nat) : Emit U64 :=
  if width ≤ bitsN then do
    let k ← checkedSub 64 width
    checkedShr (BitVec.allOnes 64) k
  else do
    let m ← checkedShl 1#64 bitsN
    return m - 1#64

/-- The field in its place, and its width when it is at bit 0. -/
def emitField (em : IrEmitter) (size : RegSize) (immr imms : Nat) (src : ValueRef) :
    Emit (ValueRef × Nat) :=
  if immr ≤ imms then do
    let extractBits := imms - immr + 1
    let amt ← em.constU64 (BitVec.ofNat 64 immr)
    let shifted ← em.lsr src amt size
    let mask ← lowMask extractBits size.bits
    let maskC ← em.constU64 mask
    let bot ← em.and shifted maskC size
    return (bot, extractBits)
  else do
    let extractBits := imms + 1
    let mask ← checkedShl 1#64 extractBits
    let maskC ← em.constU64 (mask - 1#64)
    let masked ← em.and src maskC size
    let shift ← checkedSub size.bits immr
    let shiftC ← em.constU64 (BitVec.ofNat 64 shift)
    let bot ← em.lsl masked shiftC size
    return (bot, 0)

/-- The highest bit of the field in its place. -/
def highBitOf (size : RegSize) (immr imms : Nat) : Emit Nat :=
  if imms < immr then checkedSub (imms + size.bits) immr else checkedSub imms immr

/-- The sign-extended field. -/
def emitSigned (em : IrEmitter) (size : RegSize) (immr imms : Nat) (bot : ValueRef) :
    Emit ValueRef := do
  let highBit ← highBitOf size immr imms
  let top ← checkedSub size.bits 1
  let shlAmt ← checkedSub top highBit
  let amtC ← em.constU64 (BitVec.ofNat 64 shlAmt)
  let shiftedL ← em.lsl bot amtC size
  let amt2 ← em.constU64 (BitVec.ofNat 64 shlAmt)
  em.asr shiftedL amt2 size

/-- The mask of the bits the field takes.  `wrapping_shl` reduces its amount. -/
def takenMask (size : RegSize) (immr imms lowMaskBits : Nat) : Emit U64 :=
  if immr ≤ imms then lowMask lowMaskBits size.bits
  else do
    let mask ← checkedShl 1#64 (imms + 1)
    let k ← checkedSub size.bits immr
    return (mask - 1#64) <<< (k % 64)

/-- The field put into the destination. -/
def emitInsert (em : IrEmitter) (rd : U8) (size : RegSize) (immr imms lowMaskBits : Nat)
    (bot : ValueRef) : Emit ValueRef := do
  let dstPrev ← em.getGpr rd size
  let mask ← takenMask size immr imms lowMaskBits
  let clearMask := ~~~mask
  let clearC ← em.constU64 (if size = .w then clearMask &&& 0xFFFFFFFF#64 else clearMask)
  let cleared ← em.and dstPrev clearC size
  em.or cleared bot size

def emitResult (em : IrEmitter) (kind : BitfieldKind) (rd : U8) (size : RegSize)
    (immr imms lowMaskBits : Nat) (bot : ValueRef) : Emit ValueRef :=
  match kind with
  | .ubfm => pure bot
  | .sbfm => emitSigned em size immr imms bot
  | .bfm => emitInsert em rd size immr imms lowMaskBits bot

def translate (em : IrEmitter) (insn : BitfieldInsn) : Emit InstStatus :=
  let (raw, kind) := insn.fields
  let sf := bit raw 31
  let immr := bits raw 16 6
  let imms := bits raw 10 6
  -- 32-bit forms with the top bit of a field set are undefined, and would underflow below.
  if sf ≠ bit raw 22 ∨ (sf = 0 ∧ (32 ≤ immr ∨ 32 ≤ imms)) then
    .fail (.error (.decode em.currentPc raw))
  else do
    let size := sizeOf sf
    let src ← em.getGpr (regField raw 5) size
    let (bot, lowMaskBits) ← emitField em size immr imms src
    let result ← emitResult em kind (regField raw 0) size immr imms lowMaskBits bot
    em.setGpr (regField raw 0) result size
    return .continues

/-- The encodings that are translated. -/
def Accepted (insn : BitfieldInsn) : Prop :=
  bit insn.fields.1 31 = bit insn.fields.1 22 ∧
    (bit insn.fields.1 31 = 0 → bits insn.fields.1 16 6 < 32 ∧ bits insn.fields.1 10 6 < 32)

instance (insn : BitfieldInsn) : Decidable insn.Accepted := by
  unfold Accepted
  infer_instance

/-- The instruction as the architecture defines it. -/
def arm (insn : BitfieldInsn) (m : Machine) : Machine :=
  let (raw, kind) := insn.fields
  let move (N : Nat) : U64 :=
    (Guest.bitfieldMove (kind != .bfm) (kind == .sbfm) (bits raw 16 6) (bits raw 10 6)
      ((m.readX (bits raw 5 5)).setWidth N) ((m.readX (bits raw 0 5)).setWidth N)).setWidth 64
  m.writeX (bits raw 0 5) (move (sizeOf (bit raw 31)).bits)

/-! ## Masks -/

open IrEmitter Guest

variable {em : IrEmitter} {n : Nat} {f : Frame} {size : RegSize} {immr imms : Nat}

theorem bits_le (size : RegSize) : 32 ≤ size.bits ∧ size.bits ≤ 64 := by
  cases size <;> decide

/-- Rules for the arithmetic of the translator. -/
theorem wp_checkedShl {x : U64} {k : Nat} (hk : k < 64) {R : U64 → Nat → Frame → Prop} :
    (checkedShl x k).wp Armlet.strictStep n f R ↔ R (x <<< k) n f := by
  rw [checkedShl, if_pos hk]
  exact Prog.wp_pure _

theorem wp_checkedShr {x : U64} {k : Nat} (hk : k < 64) {R : U64 → Nat → Frame → Prop} :
    (checkedShr x k).wp Armlet.strictStep n f R ↔ R (x >>> k) n f := by
  rw [checkedShr, if_pos hk]
  exact Prog.wp_pure _

theorem wp_checkedSub {a b : Nat} (h : b ≤ a) {R : Nat → Nat → Frame → Prop} :
    (checkedSub a b).wp Armlet.strictStep n f R ↔ R (a - b) n f := by
  rw [checkedSub, if_pos h]
  exact Prog.wp_pure _

theorem mask_eq {k : Nat} (hk : k < 64) : (1#64 <<< k) - 1#64 = lowOnes 64 k := by
  have hones : (BitVec.allOnes 64).setWidth k = BitVec.allOnes k := by
    refine BitVec.eq_of_getLsbD_eq fun i hi => ?_
    rw [BitVec.getLsbD_setWidth, BitVec.getLsbD_allOnes, BitVec.getLsbD_allOnes, decide_eq_true hi,
      decide_eq_true (by omega : i < 64)]
    rfl
  have hmask := Lanes.and_lowMask hk (BitVec.allOnes 64)
  rwa [BitVec.allOnes_and, hones] at hmask

theorem setWidth_lowOnes (size : RegSize) (k : Nat) :
    (lowOnes 64 k).setWidth size.bits = lowOnes size.bits k := by
  have hle := (bits_le size).2
  refine BitVec.eq_of_getLsbD_eq fun i hi => ?_
  rw [BitVec.getLsbD_setWidth, getLsbD_lowOnes hi, getLsbD_lowOnes (by omega), decide_eq_true hi,
    Bool.true_and]

/-- The mask of the low bits at the width of the operation. -/
theorem wp_lowMask {bitsN : Nat} (hle : bitsN ≤ size.bits) {R : U64 → Nat → Frame → Prop}
    (h : ∀ mask : U64, mask.setWidth size.bits = lowOnes size.bits bitsN → R mask n f) :
    (lowMask bitsN size.bits).wp Armlet.strictStep n f R := by
  have hsize := bits_le size
  rw [lowMask]
  split
  · next hfull =>
    rw [Prog.wp_bind, wp_checkedSub hsize.2, wp_checkedShr (by omega)]
    refine h _ (BitVec.eq_of_getLsbD_eq fun i hi => ?_)
    rw [BitVec.getLsbD_setWidth, BitVec.getLsbD_ushiftRight, BitVec.getLsbD_allOnes,
      getLsbD_lowOnes hi, decide_eq_true hi, decide_eq_true (by omega : 64 - size.bits + i < 64),
      decide_eq_true (by omega : i < bitsN)]
    rfl
  · next hfull =>
    rw [Prog.wp_bind, wp_checkedShl (by omega), Prog.wp_pure, mask_eq (by omega)]
    exact h _ (setWidth_lowOnes size bitsN)

/-! ## The nodes -/

theorem wp_emitField (himmr : immr < size.bits) (himms : imms < size.bits) {src : ValueRef}
    (hsrc : src < n) : (emitField em size immr imms src).wp Armlet.strictStep n f fun p n' f' =>
      n ≤ n' ∧ p.1 < n' ∧ Keeps n f f' ∧ (immr ≤ imms → p.2 = imms - immr + 1) ∧
        lowBits (f'.value p.1) size = field immr imms (lowBits (f.value src) size) := by
  have hsize := bits_le size
  have hne : src ≠ n := Nat.ne_of_lt hsrc
  rw [emitField]
  split
  · next hle =>
    rw [Prog.wp_bind, strict_constU64, Prog.wp_bind, em.strict_lsr size himmr (by simp), Prog.wp_bind]
    refine wp_lowMask (by omega) fun mask hmask => ?_
    rw [Prog.wp_bind, strict_constU64, Prog.wp_bind, strict_and, Prog.wp_pure]
    simp [Nat.add_assoc, keeps_refl, hne, hmask, field, hle, extracted]
  · next hlt =>
    rw [Prog.wp_bind, wp_checkedShl (by omega), mask_eq (by omega), Prog.wp_bind, strict_constU64,
      Prog.wp_bind, strict_and, Prog.wp_bind, wp_checkedSub (by omega), Prog.wp_bind, strict_constU64,
      Prog.wp_bind, em.strict_lsl size (k := size.bits - immr) (by omega) (by simp), Prog.wp_pure]
    simp [Nat.add_assoc, keeps_refl, hne, setWidth_lowOnes, field, hlt, inserted]

theorem wp_highBitOf (himmr : immr < size.bits) {R : Nat → Nat → Frame → Prop} :
    (highBitOf size immr imms).wp Armlet.strictStep n f R ↔
      R (fieldTop size.bits immr imms) n f := by
  rw [highBitOf, fieldTop]
  by_cases hle : immr ≤ imms
  · rw [if_neg (Nat.not_lt.mpr hle), if_pos hle, wp_checkedSub hle]
  · rw [if_pos (Nat.not_le.mp hle), if_neg hle, wp_checkedSub (by omega)]

theorem computes_emitSigned (himmr : immr < size.bits) (himms : imms < size.bits) {bot : ValueRef}
    (hbot : bot < n) :
    Computes Armlet.strictStep (emitSigned em size immr imms bot) n f fun v => lowBits v size =
      (lowBits (f.value bot) size <<< (size.bits - 1 - fieldTop size.bits immr imms)).sshiftRight
        (size.bits - 1 - fieldTop size.bits immr imms) := by
  have hsize := bits_le size
  have hne : bot ≠ n := Nat.ne_of_lt hbot
  have htop : fieldTop size.bits immr imms ≤ size.bits - 1 := by
    rw [fieldTop]
    split <;> omega
  rw [Computes, emitSigned, Prog.wp_bind, wp_highBitOf himmr]
  generalize fieldTop size.bits immr imms = top at htop
  rw [Prog.wp_bind, wp_checkedSub (by omega), Prog.wp_bind, wp_checkedSub htop, Prog.wp_bind,
    strict_constU64, Prog.wp_bind, em.strict_lsl size (k := size.bits - 1 - top) (by omega) (by simp),
    Prog.wp_bind, strict_constU64, em.strict_asr size (k := size.bits - 1 - top) (by omega) (by simp)]
  simp [Nat.add_assoc, keeps_refl, hne]

theorem wp_takenMask (himmr : immr < size.bits) (himms : imms < size.bits) {lowMaskBits : Nat}
    (hbits : immr ≤ imms → lowMaskBits = imms - immr + 1) {R : U64 → Nat → Frame → Prop}
    (h : ∀ mask : U64, mask.setWidth size.bits = fieldMask size.bits immr imms → R mask n f) :
    (takenMask size immr imms lowMaskBits).wp Armlet.strictStep n f R := by
  have hsize := bits_le size
  rw [takenMask]
  split
  · next hle =>
    rw [hbits hle]
    refine wp_lowMask (by omega) fun mask hmask => h mask ?_
    rw [hmask, fieldMask, if_pos hle]
  · next hlt =>
    rw [Prog.wp_bind, wp_checkedShl (by omega), mask_eq (by omega), Prog.wp_bind,
      wp_checkedSub (by omega), Prog.wp_pure, Nat.mod_eq_of_lt (by omega : size.bits - immr < 64)]
    refine h _ ?_
    rw [fieldMask, if_neg hlt, ← setWidth_lowOnes]
    refine BitVec.eq_of_getLsbD_eq fun i hi => ?_
    simp only [BitVec.getLsbD_setWidth, BitVec.getLsbD_shiftLeft]
    have h1 : i < 64 := by omega
    have h2 : i - (size.bits - immr) < size.bits := by omega
    simp [hi, h1, h2]

theorem computes_emitInsert (himmr : immr < size.bits) (himms : imms < size.bits) {rd : U8}
    {lowMaskBits : Nat} (hbits : immr ≤ imms → lowMaskBits = imms - immr + 1) {bot : ValueRef}
    (hbot : bot < n) :
    Computes Armlet.strictStep (emitInsert em rd size immr imms lowMaskBits bot) n f fun v =>
      lowBits v size = ((f.machine.readX rd.toNat).setWidth size.bits &&&
        ~~~fieldMask size.bits immr imms) ||| lowBits (f.value bot) size := by
  have hne : bot ≠ n := Nat.ne_of_lt hbot
  have hne1 : bot ≠ n + 1 := Nat.ne_of_lt (Nat.lt_succ_of_lt hbot)
  have hne2 : bot ≠ n + 2 := Nat.ne_of_lt (Nat.lt_succ_of_lt (Nat.lt_succ_of_lt hbot))
  rw [Computes, emitInsert, Prog.wp_bind, strict_getGpr, Prog.wp_bind]
  refine wp_takenMask himmr himms hbits fun mask hmask => ?_
  have hclear : (if size = .w then ~~~mask &&& 0xFFFFFFFF#64 else ~~~mask).setWidth size.bits =
      ~~~fieldMask size.bits immr imms := by
    have hones : (0xFFFFFFFF#64).setWidth 32 = BitVec.allOnes 32 := by decide
    rw [← hmask]
    cases size
    · rw [if_pos rfl, BitVec.setWidth_and, BitVec.setWidth_not (by decide)]
      exact (congrArg _ hones).trans BitVec.and_allOnes
    · rw [if_neg (by decide), BitVec.setWidth_not (by decide)]
  rw [Prog.wp_bind, strict_constU64, Prog.wp_bind, strict_and, strict_or]
  simp [Nat.add_assoc, keeps_refl, hne, hne1, hne2, hclear]

theorem computes_emitResult (kind : BitfieldKind) (himmr : immr < size.bits)
    (himms : imms < size.bits) {rd : U8} {lowMaskBits : Nat}
    (hbits : immr ≤ imms → lowMaskBits = imms - immr + 1) {bot : ValueRef} (hbot : bot < n)
    {src : BitVec size.bits} (hfield : lowBits (f.value bot) size = field immr imms src) :
    Computes Armlet.strictStep (emitResult em kind rd size immr imms lowMaskBits bot) n f fun v =>
      lowBits v size = bitfieldMove (kind != .bfm) (kind == .sbfm) immr imms src
        ((f.machine.readX rd.toNat).setWidth size.bits) := by
  cases kind with
  | ubfm =>
    refine computes_pure hbot ?_
    rw [hfield]
    exact (bitfieldMove_unsigned _ _ himmr himms).symm
  | sbfm =>
    refine Prog.wp_mono (computes_emitSigned himmr himms hbot) ?_
    rintro r n' f' ⟨hle, hlt, hkeep, hv⟩
    refine ⟨hle, hlt, hkeep, hv.trans ?_⟩
    rw [hfield]
    exact (bitfieldMove_signed _ _ himmr himms).symm
  | bfm =>
    refine Prog.wp_mono (computes_emitInsert himmr himms hbits hbot) ?_
    rintro r n' f' ⟨hle, hlt, hkeep, hv⟩
    refine ⟨hle, hlt, hkeep, hv.trans ?_⟩
    rw [hfield]
    exact (bitfieldMove_insert _ _ himmr himms).symm

/-- Other encodings are undefined. -/
theorem translate_of_not_accepted {insn : BitfieldInsn} (h : ¬ insn.Accepted) (em : IrEmitter) :
    insn.translate em = .fail (.error (.decode em.currentPc insn.fields.1)) := by
  rw [translate]
  refine if_pos ?_
  refine Decidable.by_contra fun hdefined => h ?_
  obtain ⟨heq, hfits⟩ := not_or.mp hdefined
  refine ⟨Decidable.not_not.mp heq, fun hzero => ?_⟩
  obtain ⟨h1, h2⟩ := not_or.mp (not_and.mp hfits hzero)
  exact ⟨Nat.not_le.mp h1, Nat.not_le.mp h2⟩

theorem wp_translate (insn : BitfieldInsn) (ha : insn.Accepted) (em : IrEmitter) (n : Nat)
    (f : Frame) : (insn.translate em).wp Armlet.strictStep n f fun st _ f' =>
      st = .continues ∧ f'.machine = insn.arm f.machine := by
  rcases hfields : insn.fields with ⟨raw, kind⟩
  have ha : bit raw 31 = bit raw 22 ∧ (bit raw 31 = 0 → bits raw 16 6 < 32 ∧ bits raw 10 6 < 32) := by
    rwa [Accepted, hfields] at ha
  have himmr := bits_lt raw 16 (by decide : 6 < 32)
  have himms := bits_lt raw 10 (by decide : 6 < 32)
  have hwidth : bits raw 16 6 < (sizeOf (bit raw 31)).bits ∧
      bits raw 10 6 < (sizeOf (bit raw 31)).bits := by
    rcases bit_cases raw 31 with h | h
    · rw [h]
      exact ha.2 h
    · rw [h]
      exact ⟨himmr, himms⟩
  obtain ⟨hr, hs⟩ := hwidth
  rw [translate, arm, hfields]
  simp only
  rw [if_neg (by simp only [ha.1]; omega)]
  rw [Prog.wp_bind, strict_getGpr, Prog.wp_bind]
  refine Prog.wp_mono (wp_emitField hr hs (Nat.lt_succ_self _)) ?_
  rintro ⟨bot, lowMaskBits⟩ n1 f1 ⟨hn1, hbot, hkeep1, hbits, hfield⟩
  rw [Prog.wp_bind]
  refine Prog.wp_mono (computes_emitResult kind hr hs hbits hbot hfield) ?_
  rintro r n2 f2 ⟨-, -, hkeep2, hv⟩
  rw [Prog.wp_bind, strict_setGpr, Prog.wp_pure]
  refine ⟨rfl, ?_⟩
  have hmachine : f1.machine = f.machine := hkeep1.machine
  rw [hv, hkeep2.machine, hmachine]
  simp [toNat_regField]

/-- The amount that `wrapping_shl` would reduce, for the fields that move up. -/
def upwardAmount (insn : BitfieldInsn) : Nat :=
  (sizeOf (bit insn.fields.1 31)).bits - bits insn.fields.1 16 6

/-- **The emitted code is the bitfield move**, on a machine that shifts by less than the width.  The
translator's own shifts are in range too: those that are checked, as it does not stop, and the
wrapping one. -/
theorem translate_exact (insn : BitfieldInsn) (ha : insn.Accepted) (em : IrEmitter) (n : Nat)
    (f : Frame) : ((insn.translate em).wp Armlet.strictStep n f fun st _ f' =>
        st = .continues ∧ f'.machine = insn.arm f.machine) ∧
      (bits insn.fields.1 10 6 < bits insn.fields.1 16 6 →
        insn.upwardAmount < (sizeOf (bit insn.fields.1 31)).bits) := by
  refine ⟨wp_translate insn ha em n f, fun hlt => ?_⟩
  have := (bits_le (sizeOf (bit insn.fields.1 31))).1
  rw [upwardAmount]
  omega

theorem translate_exact_lsl : (ubfmRdRnImmrImms 0xD37CEC20#32).Accepted ∧
    (((ubfmRdRnImmrImms 0xD37CEC20#32).translate ⟨0⟩).wp Armlet.strictStep 1
        ⟨⟨fun _ => 5, 0, 0, fun _ => 0, fun _ => 0, []⟩, fun _ => ⟨.void, 0⟩⟩ fun st _ f' =>
          st = .continues ∧ f'.machine = (ubfmRdRnImmrImms 0xD37CEC20#32).arm
            ⟨fun _ => 5, 0, 0, fun _ => 0, fun _ => 0, []⟩) ∧
      (bits 0xD37CEC20#32 10 6 < bits 0xD37CEC20#32 16 6 →
        (ubfmRdRnImmrImms 0xD37CEC20#32).upwardAmount < (sizeOf (bit 0xD37CEC20#32 31)).bits) :=
  ⟨by decide, translate_exact _ (by decide) _ _ _⟩

end BitfieldInsn

end Rustarmic
