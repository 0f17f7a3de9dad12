import Rustarmic.Frontend.LoadStore

/-!
# Translating loads and stores of two registers, and of literals

* `LdstpairOff.translate`, `LdstpairIndexed.translate`, `Loadlit.translate` — the translators.
* `does_emitPair`, `ends_ldpsw` — the two accesses and their registers.
* `LoadStoreInsn` — an instruction of one of the seven classes.
* `load_store_follows_arm` — what is accepted is the instruction of the architecture, except where
  that has none.

A pair is two accesses of one size, the second one behind the first, and the address of the second
is a sum that may wrap.  Both values of a load are there before either register is written, and both
registers of a store are read before memory is written.

* **Pairs of 128-bit registers** go through functions of their own in the source, which finish one
  register before they begin with the other.  The addresses are values by then, and so this makes no
  difference.
* **LDPSW** is not one of the shared operations: its two words are sign-extended by shifts, and its
  address is computed by itself.
* **A literal** has its address from the PC of the instruction, which the translator knows, so that
  the node is a constant.

The last theorem is over all classes together.  `Unallocated` names the encodings a translator
accepts although the architecture has no instruction there, and it is an equivalence: everywhere
else what is accepted is the instruction, and on those there is none.
-/

set_option autoImplicit false

namespace Rustarmic

open Emitting Interp IrEmitter ModularMemory

/-! ## The translators of pairs -/

/-- The loads and stores that the two classes share. -/
inductive PairOp where
  | stp | ldp | stpFt | ldpFt
  deriving DecidableEq, Repr

namespace PairOp

def isLoad : PairOp → Bool
  | ldp | ldpFt => true
  | stp | stpFt => false

def isFp : PairOp → Bool
  | stpFt | ldpFt => true
  | stp | ldp => false

/-- The scale, the bytes and the size of an operand; the other values of the field are reserved. -/
def sizes (op : PairOp) (opc : Nat) : Option (Nat × Nat × RegSize) :=
  if op.isFp then
    match opc with
    | 0b00 => some (2, 4, .w)
    | 0b01 => some (3, 8, .x)
    | 0b10 => some (4, 16, .x)
    | _ => none
  else
    match opc with
    | 0b00 => some (2, 4, .w)
    | 0b10 => some (3, 8, .x)
    | _ => none

end PairOp

/-- The offset of seven bits, scaled. -/
def imm7 (raw : U32) (scale : Nat) : U64 := signExtend (BitVec.ofNat 64 (bits raw 15 7)) 7 <<< scale

def fpLoadQ (em : IrEmitter) (rt : U8) (addr : ValueRef) : Emit Unit := do
  let q ← em.load addr 16
  em.setVQ rt q

def fpStoreQ (em : IrEmitter) (rt : U8) (addr : ValueRef) : Emit Unit := do
  let q ← em.getVQ rt
  em.store addr q 16

/-- A register of a pair that is loaded. -/
def emitPairSet (em : IrEmitter) (isFp : Bool) (sizeBytes : Nat) (sizeKind : RegSize) (rt : U8) (v : ValueRef) :
    Emit Unit :=
  if isFp then if sizeBytes = 8 then em.setVD rt v else em.setVS rt v else em.setGpr rt v sizeKind

/-- A register of a pair that is stored. -/
def emitPairGet (em : IrEmitter) (isFp : Bool) (sizeBytes : Nat) (sizeKind : RegSize) (rt : U8) :
    Emit ValueRef :=
  if isFp then if sizeBytes = 8 then em.getVD rt else em.getVS rt else em.getGpr rt sizeKind

/-- The two accesses and their registers. -/
def emitPair (em : IrEmitter) (op : PairOp) (sizeBytes : Nat) (sizeKind : RegSize) (rt rt2 : U8)
    (accessAddr accessAddr2 : ValueRef) : Emit Unit :=
  if op.isLoad then
    if op.isFp ∧ sizeBytes = 16 then do
      fpLoadQ em rt accessAddr
      fpLoadQ em rt2 accessAddr2
    else do
      let lo ← em.load accessAddr sizeBytes
      let hi ← em.load accessAddr2 sizeBytes
      emitPairSet em op.isFp sizeBytes sizeKind rt lo
      emitPairSet em op.isFp sizeBytes sizeKind rt2 hi
  else
    if op.isFp ∧ sizeBytes = 16 then do
      fpStoreQ em rt accessAddr
      fpStoreQ em rt2 accessAddr2
    else do
      let lo ← emitPairGet em op.isFp sizeBytes sizeKind rt
      let hi ← emitPairGet em op.isFp sizeBytes sizeKind rt2
      em.store accessAddr lo sizeBytes
      em.store accessAddr2 hi sizeBytes

inductive IdxMode where
  | off | pre | post
  deriving DecidableEq, Repr

/-- The index of the architecture. -/
def IdxMode.index : IdxMode → Guest.Index
  | off => .offset
  | pre => .pre
  | post => .post

/-- Two words that are sign-extended. -/
def ldpsw (em : IrEmitter) (raw : U32) (mode : IdxMode) : Emit InstStatus := do
  let base ← em.getXOrSp (regField raw 5) true
  let off ← em.constU64 (imm7 raw 2)
  let writebackAddr ← em.add base off .x
  let accessAddr := if mode = .post then base else writebackAddr
  let four ← em.constU64 4
  let accessAddr2 ← em.add accessAddr four .x
  let lo ← em.load accessAddr 4
  let hi ← em.load accessAddr2 4
  let sh ← em.constU64 32
  let lo1 ← em.lsl lo sh .x
  let loSx ← em.asr lo1 sh .x
  let hi1 ← em.lsl hi sh .x
  let hiSx ← em.asr hi1 sh .x
  em.setX (regField raw 0) loSx
  em.setX (regField raw 10) hiSx
  if mode = .off then pure () else em.setXOrSp (regField raw 5) writebackAddr true
  return .continues

/-- The decoder's class of pairs at an offset. -/
inductive LdstpairOff where
  | pair (op : PairOp) (i : U32)
  | ldpsw (i : U32)
  | other (i : U32)

def LdstpairOff.translate (em : IrEmitter) : LdstpairOff → Emit InstStatus
  | ldpsw raw => Rustarmic.ldpsw em raw .off
  | other _ => .fail (.error (.unsupported em.currentPc 0))
  | pair op raw =>
    match op.sizes (bits raw 30 2) with
    | none => .fail (.error (.unsupported em.currentPc raw))
    | some (scale, sizeBytes, sizeKind) => do
      let base ← em.getXOrSp (regField raw 5) true
      let off ← em.constU64 (imm7 raw scale)
      let accessAddr ← em.add base off .x
      let one ← em.constU64 (BitVec.ofNat 64 sizeBytes)
      let accessAddr2 ← em.add accessAddr one .x
      emitPair em op sizeBytes sizeKind (regField raw 0) (regField raw 10) accessAddr accessAddr2
      return .continues

/-- The class that writes the base back. -/
inductive LdstpairIndexed where
  | pair (op : PairOp) (i : U32)
  | ldpsw (i : U32)
  | other (i : U32)

def LdstpairIndexed.translate (em : IrEmitter) : LdstpairIndexed → Emit InstStatus
  | ldpsw raw => Rustarmic.ldpsw em raw (if bits raw 23 3 = 0b001 then .post else .pre)
  | other _ => .fail (.error (.unsupported em.currentPc 0))
  | pair op raw =>
    match op.sizes (bits raw 30 2) with
    | none => .fail (.error (.unsupported em.currentPc raw))
    | some (scale, sizeBytes, sizeKind) => do
      let base ← em.getXOrSp (regField raw 5) true
      let off ← em.constU64 (imm7 raw scale)
      let writebackAddr ← em.add base off .x
      let accessAddr := if bits raw 23 3 = 0b001 then base else writebackAddr
      let one ← em.constU64 (BitVec.ofNat 64 sizeBytes)
      let accessAddr2 ← em.add accessAddr one .x
      emitPair em op sizeBytes sizeKind (regField raw 0) (regField raw 10) accessAddr accessAddr2
      em.setXOrSp (regField raw 5) writebackAddr true
      return .continues

/-! ## Literals -/

/-- The decoder's class of literals. -/
inductive Loadlit where
  | ldrRtAddrPcrel19 (i : U32)
  | ldrswRtAddrPcrel19 (i : U32)
  | ldrFtAddrPcrel19 (i : U32)
  | prfmPrfopAddrPcrel19 (i : U32)

namespace Loadlit

/-- The register of a literal. -/
def emitLiteral (em : IrEmitter) (raw : U32) (rt : U8) (addr : ValueRef) : Emit InstStatus :=
  if bit raw 26 = 1 then
    match bits raw 30 2 with
    | 0b00 => do
      let val ← em.load addr 4
      em.setVS rt val
      return .continues
    | 0b01 => do
      let val ← em.load addr 8
      em.setVD rt val
      return .continues
    | 0b10 => do
      let q ← em.load addr 16
      em.setVQ rt q
      return .continues
    | _ => .fail (.error (.unsupported em.currentPc raw))
  else
    match bits raw 30 2 with
    | 0b00 => do
      let val ← em.load addr 4
      em.setW rt val
      return .continues
    | 0b01 => do
      let val ← em.load addr 8
      em.setX rt val
      return .continues
    | 0b10 => do
      let val ← em.load addr 4
      let sx ← emitSignExtend em 32 val
      em.setX rt sx
      return .continues
    | _ => .fail (.error (.unsupported em.currentPc raw))

def translate (em : IrEmitter) : Loadlit → Emit InstStatus
  | prfmPrfopAddrPcrel19 _ => return .continues
  | ldrRtAddrPcrel19 raw | ldrswRtAddrPcrel19 raw | ldrFtAddrPcrel19 raw => do
    let offset := signExtend (BitVec.ofNat 64 (bits raw 5 19) <<< 2) 21
    let addr ← em.constU64 (em.currentPc + offset)
    emitLiteral em raw (regField raw 0) addr

end Loadlit

/-! ## The two accesses -/

variable {em : IrEmitter} {n : Nat} {f : Frame}

namespace PairOp

/-- The transfer of the architecture. -/
def transfer : PairOp → Guest.Transfer
  | stp => .store
  | ldp => .load
  | stpFt => .storeV
  | ldpFt => .loadV

variable {op : PairOp} {opc k sizeBytes : Nat} {sizeKind : RegSize}

/-- What the sizes of a pair are. -/
theorem sizes_cases (h : op.sizes opc = some (k, sizeBytes, sizeKind)) : sizeBytes = 2 ^ k ∧ 2 ≤ k ∧ k ≤ 4 ∧
    (op.isFp = false → k ≤ 3 ∧ sizeKind = if k = 3 then .x else .w) := by
  unfold sizes at h
  split at h
  · next hfp =>
    rw [hfp]
    split at h <;> cases h <;> decide
  · next hfp => split at h <;> cases h <;> simp

end PairOp

section registers

variable {op : PairOp} {opc k sizeBytes : Nat} {sizeKind : RegSize} {rt : U8}
  (hs : op.sizes opc = some (k, sizeBytes, sizeKind))
include hs

theorem does_emitPairSet (hload : op.isLoad = true) (hq : ¬ (op.isFp = true ∧ sizeBytes = 16))
    {v : ValueRef} {m : Mem 64}
    {addr : U64} (hv : f.value v = ⟨loadTy sizeBytes, read 128 m addr sizeBytes⟩) :
    Does (emitPairSet em op.isFp sizeBytes sizeKind rt v) n f
      (op.transfer.put rt.toNat (read (8 * sizeBytes) m addr sizeBytes) f.machine) := by
  obtain ⟨rfl, h2, h4, hgeneral⟩ := PairOp.sizes_cases hs
  have hbytes : 2 ^ k ≤ 16 := Nat.pow_le_pow_right (by decide) h4
  have hread {N : Nat} : (read (8 * 2 ^ k) m addr (2 ^ k)).setWidth N =
      (read 128 m addr (2 ^ k)).setWidth N := by
    rw [setWidth_read (by omega), setWidth_read (by omega)]
  cases op with
  | stp | stpFt => cases hload
  | ldp =>
    obtain ⟨h3, rfl⟩ := hgeneral rfl
    rw [PairOp.transfer, Guest.Transfer.put, Guest.setX, hread, emitPairSet, PairOp.isFp, if_neg (by decide)]
    obtain rfl | rfl : k = 2 ∨ k = 3 := by omega
    · refine does_setW rt v ?_
      rw [hv]
      exact setWidth_read_fits (by decide) (by decide)
    · refine does_setX rt v ?_
      rw [hv]
      rfl
  | ldpFt =>
    have h3 : k = 2 ∨ k = 3 := by
      have hne : k ≠ 4 := by
        rintro rfl
        exact hq ⟨rfl, rfl⟩
      omega
    rw [PairOp.transfer, Guest.Transfer.put, hread, BitVec.setWidth_eq, emitPairSet, PairOp.isFp, if_pos rfl]
    rcases h3 with rfl | rfl
    · rw [if_neg (by decide)]
      refine does_setV fun _ => wp_setVS rt ?_
      rw [hv]
      exact congrArg some ((setWidth_read_fits (by decide) (by decide)).trans (BitVec.setWidth_eq _))
    · rw [if_pos (by decide)]
      refine does_setV fun _ => wp_setVD rt ?_
      rw [hv]
      exact congrArg some ((setWidth_read_fits (by decide) (by decide)).trans (BitVec.setWidth_eq _))

theorem computes_emitPairGet (hstore : op.isLoad = false) (hq : ¬ (op.isFp = true ∧ sizeBytes = 16)) :
    Computes Armlet.step (emitPairGet em op.isFp sizeBytes sizeKind rt) n f fun v =>
      v.bits.setWidth (8 * sizeBytes) = op.transfer.get sizeBytes rt.toNat f.machine := by
  obtain ⟨rfl, h2, h4, hgeneral⟩ := PairOp.sizes_cases hs
  cases op with
  | ldp | ldpFt => cases hstore
  | stp =>
    obtain ⟨h3, rfl⟩ := hgeneral rfl
    rw [PairOp.transfer, emitPairGet, PairOp.isFp, if_neg (by decide)]
    refine computes_of_value (fun _ => em.wp_getGpr rt _) ?_
    obtain rfl | rfl : k = 2 ∨ k = 3 := by omega
    · exact (BitVec.setWidth_setWidth_of_le _ (by decide)).trans (BitVec.setWidth_setWidth_of_le _ (by decide))
    · exact BitVec.setWidth_setWidth_of_le _ (by decide)
  | stpFt =>
    have h3 : k = 2 ∨ k = 3 := by
      have hne : k ≠ 4 := by
        rintro rfl
        exact hq ⟨rfl, rfl⟩
      omega
    rw [PairOp.transfer, emitPairGet, PairOp.isFp, if_pos rfl]
    rcases h3 with rfl | rfl
    · rw [if_neg (by decide)]
      refine computes_of_value (fun _ => wp_getVS rt) ?_
      exact (BitVec.setWidth_setWidth_of_le _ (by decide)).trans (BitVec.setWidth_setWidth_of_le _ (by decide))
    · rw [if_pos (by decide)]
      refine computes_of_value (fun _ => wp_getVD rt) ?_
      exact (BitVec.setWidth_setWidth_of_le _ (by decide)).trans (BitVec.setWidth_setWidth_of_le _ (by decide))

end registers

theorem does_fpLoadQ (rt : U8) (addr : ValueRef) : Does (fpLoadQ em rt addr) n f
    ((f.machine.load (f.value addr).lo64 16).writeV rt.toNat
      (read 128 f.machine.memory (f.value addr).lo64 16)) := by
  refine does_load (k := 4) (by decide) fun f1 hm _ hv => ?_
  rw [show f.machine.load (f.value addr).lo64 16 = f1.machine from hm.symm]
  refine does_setV fun _ => wp_setVQ rt ?_
  rw [hv]
  rfl

theorem does_fpStoreQ (rt : U8) {addr : ValueRef} (haddr : addr < n) : Does (fpStoreQ em rt addr) n f
    (Guest.memWrite f.machine (f.value addr).lo64 16 (f.machine.v rt.toNat)) := by
  rw [fpStoreQ, Does, Prog.wp_bind, wp_getVQ]
  have hstore : Does (em.store addr n 16) (n + 1) (f.define n ⟨.u128, f.machine.v rt.toNat⟩) _ :=
    does_store (k := 4) (by decide) addr n (by rw [Frame.value_define, if_pos rfl])
  rw [Frame.value_define, if_neg (Nat.ne_of_lt haddr)] at hstore
  exact hstore.after_define rfl

namespace PairOp

theorem loads_transfer (op : PairOp) : op.transfer.loads = op.isLoad := by cases op <;> rfl

theorem eq_ldpFt {op : PairOp} (hload : op.isLoad = true) (hfp : op.isFp = true) : op = ldpFt := by
  cases op with
  | ldpFt => rfl
  | ldp => cases hfp
  | stp | stpFt => cases hload

theorem eq_stpFt {op : PairOp} (hload : op.isLoad = false) (hfp : op.isFp = true) : op = stpFt := by
  cases op with
  | stpFt => rfl
  | stp => cases hfp
  | ldp | ldpFt => cases hload

end PairOp

section accesses

variable {op : PairOp} {opc k sizeBytes : Nat} {sizeKind : RegSize} {rt rt2 : U8}
  (hs : op.sizes opc = some (k, sizeBytes, sizeKind)) {a a2 : ValueRef} (ha : a < n) (ha2 : a2 < n)
include hs ha2

theorem does_emitPair_load (hload : op.isLoad = true) : Does (emitPair em op sizeBytes sizeKind rt rt2 a a2) n f
    (op.transfer.put rt2.toNat (Guest.memRead f.machine (f.value a2).lo64 sizeBytes)
      (op.transfer.put rt.toNat (Guest.memRead f.machine (f.value a).lo64 sizeBytes)
        ((f.machine.load (f.value a).lo64 sizeBytes).load (f.value a2).lo64 sizeBytes))) := by
  obtain ⟨hbytes, -, hk, -⟩ := PairOp.sizes_cases hs
  rw [emitPair, if_pos hload]
  split
  · next hq =>
    obtain ⟨hfp, rfl⟩ := hq
    obtain rfl := PairOp.eq_ldpFt hload hfp
    refine (does_fpLoadQ rt a).seq fun n1 f1 hle hkeep hm => ?_
    have h2 : Does (fpLoadQ em rt2 a2) n1 f1 _ := does_fpLoadQ rt2 a2
    rw [hkeep a2 ha2, hm] at h2
    exact h2
  · next hq =>
    subst hbytes
    refine does_load hk fun f1 hm1 hkeep1 hv1 => ?_
    refine does_load hk fun f2 hm2 hkeep2 hv2 => ?_
    have hlo := (hkeep2 n (Nat.lt_succ_self n)).trans hv1
    rw [hkeep1 a2 ha2, hm1] at hm2 hv2
    refine (does_emitPairSet hs hload hq hlo).seq fun n3 f3 hle3 hkeep3 hm3 => ?_
    have hhi := (hkeep3 (n + 1) (Nat.lt_succ_self _)).trans hv2
    have h : Does (emitPairSet em op.isFp (2 ^ k) sizeKind rt2 (n + 1)) n3 f3 _ :=
      does_emitPairSet hs hload hq hhi
    rw [hm3, hm2] at h
    exact h

include ha

theorem does_emitPair_store (hstore : op.isLoad = false) :
    Does (emitPair em op sizeBytes sizeKind rt rt2 a a2) n f
    (Guest.memWrite (Guest.memWrite f.machine (f.value a).lo64 sizeBytes
      (op.transfer.get sizeBytes rt.toNat f.machine))
      (f.value a2).lo64 sizeBytes (op.transfer.get sizeBytes rt2.toNat f.machine)) := by
  obtain ⟨hbytes, -, hk, -⟩ := PairOp.sizes_cases hs
  rw [emitPair, if_neg (by simp [hstore])]
  split
  · next hq =>
    obtain ⟨hfp, rfl⟩ := hq
    obtain rfl := PairOp.eq_stpFt hstore hfp
    refine (does_fpStoreQ rt ha).seq fun n1 f1 hle hkeep hm => ?_
    have h2 : Does (fpStoreQ em rt2 a2) n1 f1 _ := does_fpStoreQ rt2 (Nat.lt_of_lt_of_le ha2 hle)
    rw [hkeep a2 ha2, hm] at h2
    exact h2
  · next hq =>
    refine Does.of_computes (computes_emitPairGet hs hstore hq) fun lo n1 f1 hle1 hlo hkeep1 hv1 => ?_
    refine Does.of_computes (computes_emitPairGet hs hstore hq) fun hi n2 f2 hle2 hhi hkeep2 hv2 => ?_
    subst hbytes
    have hkeep := hkeep1.trans hkeep2 hle1
    rw [← hkeep2.value lo hlo] at hv1
    rw [hkeep1.machine] at hv2
    refine (does_store hk a lo hv1).seq fun n3 f3 hle3 hkeep3 hm3 => ?_
    rw [← hkeep3 hi hhi] at hv2
    have h : Does (em.store a2 hi (2 ^ k)) n3 f3 _ := does_store hk a2 hi hv2
    rw [hm3, hkeep3 a2 (Nat.lt_of_lt_of_le ha2 (hle1.trans hle2)), hkeep.value a2 ha2,
      hkeep.value a ha, hkeep.machine] at h
    exact h

/-- **Both accesses are made, and their registers.** -/
theorem does_emitPair (hnext : (f.value a2).lo64 = (f.value a).lo64 + BitVec.ofNat 64 sizeBytes) :
    Does (emitPair em op sizeBytes sizeKind rt rt2 a a2) n f
      (op.transfer.execPair sizeBytes rt.toNat rt2.toNat (f.value a).lo64 f.machine) := by
  rw [Guest.Transfer.execPair, ← hnext, op.loads_transfer]
  cases hload : op.isLoad with
  | true => exact does_emitPair_load hs ha2 hload
  | false => exact does_emitPair_store hs ha ha2 hload

end accesses

/-! ## Pairs follow the architecture -/

/-- The instruction of a word. -/
def armPair (raw : U32) (index : Guest.Index) : Option (Machine → Machine) :=
  (Guest.decodePair (bits raw 30 2) (bit raw 26) (bit raw 22)).map fun (transfer, scale) =>
    Guest.indexed index (bits raw 5 5) ((BitVec.ofNat 7 (bits raw 15 7)).signExtend 64 <<< scale)
      (transfer.execPair (2 ^ scale) (bits raw 0 5) (bits raw 10 5))

/-- The fields that the decoder read a pair from; `opc` is even for general registers. -/
def PairOp.Decoded (op : PairOp) (raw : U32) : Prop :=
  bit raw 26 = op.isFp.toNat ∧ bit raw 22 = op.isLoad.toNat ∧ (op.isFp = false → bits raw 30 2 % 2 = 0)

def LdpswFields (raw : U32) : Prop := bit raw 26 = 0 ∧ bit raw 22 = 1 ∧ bits raw 30 2 = 0b01

theorem PairOp.decodePair_eq {op : PairOp} {raw : U32} (h : op.Decoded raw) :
    Guest.decodePair (bits raw 30 2) (bit raw 26) (bit raw 22) =
      (op.sizes (bits raw 30 2)).map fun s => (op.transfer, s.1) := by
  have htable : ∀ opc < 4, ∀ op : PairOp, (op.isFp = false → opc % 2 = 0) →
      Guest.decodePair opc op.isFp.toNat op.isLoad.toNat = (op.sizes opc).map fun s => (op.transfer, s.1) := by
    intro opc hopc op heven
    obtain rfl | rfl | rfl | rfl : opc = 0 ∨ opc = 1 ∨ opc = 2 ∨ opc = 3 := by omega
    all_goals cases op <;> first | rfl | exact absurd (heven rfl) (by decide)
  rw [h.1, h.2.1]
  exact htable _ (bits_lt raw 30 (by decide : 2 < 32)) op h.2.2

theorem imm7_eq (raw : U32) (scale : Nat) :
    imm7 raw scale = (BitVec.ofNat 7 (bits raw 15 7)).signExtend 64 <<< scale := by
  rw [imm7, signExtend_eq _ (by decide), BitVec.setWidth_ofNat_of_le (by decide)]

/-- The address of the second register. -/
theorem ends_second {addr : ValueRef} (haddr : addr < n) {c : U64} {g : ValueRef → Emit InstStatus}
    {m : Machine}
    (h : ∀ addr2 n1 f1, n ≤ n1 → addr2 < n1 → Keeps n f f1 → (f1.value addr2).lo64 = (f.value addr).lo64 + c →
      Ends (g addr2) n1 f1 m) :
    Ends (do
      let one ← em.constU64 c
      let addr2 ← em.add addr one .x
      g addr2) n f m := by
  refine Ends.of_computes (computes_constU64 c) fun one n1 f1 hle1 _ hkeep1 hval1 => ?_
  refine Ends.of_computes computes_add fun addr2 n2 f2 hle2 haddr2 hkeep2 hval2 => ?_
  refine h addr2 n2 f2 (hle1.trans hle2) haddr2 (hkeep1.trans hkeep2 hle1) ?_
  rw [hval2, hval1, hkeep1.value addr haddr]

/-- What is left to show of a pair: what its code leaves when the sizes are allocated. -/
theorem followsArm_pair {op : PairOp} {raw : U32} (h : op.Decoded raw) {index : Guest.Index}
    {p : Emit InstStatus}
    (hnone : op.sizes (bits raw 30 2) = none → ∃ e, p = .fail e)
    (hsome : ∀ scale sizeBytes sizeKind, op.sizes (bits raw 30 2) = some (scale, sizeBytes, sizeKind) →
      Ends p n f (Guest.indexed index (bits raw 5 5) (imm7 raw scale)
        (op.transfer.execPair sizeBytes (bits raw 0 5) (bits raw 10 5)) f.machine)) :
    FollowsArm p (armPair raw index) n f := by
  cases hs : op.sizes (bits raw 30 2) with
  | none =>
    obtain ⟨e, rfl⟩ := hnone hs
    exact followsArm_fail
  | some s =>
    obtain ⟨scale, sizeBytes, sizeKind⟩ := s
    have hends := hsome scale sizeBytes sizeKind hs
    rw [(PairOp.sizes_cases hs).1, imm7_eq] at hends
    rw [followsArm_iff hends, armPair, PairOp.decodePair_eq h, hs]
    exact ⟨_, rfl, rfl⟩

/-! ### Two words, sign-extended -/

/-- What is done with a value that is loaded. -/
theorem ends_load {k : Nat} (hk : k ≤ 4) {addr : ValueRef} {g : ValueRef → Emit InstStatus} {m : Machine}
    (h : ∀ f1 : Frame, f1.machine = f.machine.load (f.value addr).lo64 (2 ^ k) →
      (∀ r < n, f1.value r = f.value r) →
      f1.value n = ⟨loadTy (2 ^ k), read 128 f.machine.memory (f.value addr).lo64 (2 ^ k)⟩ →
        Ends (g n) (n + 1) f1 m) :
    Ends (do
      let v ← em.load addr (2 ^ k)
      g v) n f m := by
  rw [Ends, Prog.wp_bind, wp_load hk]
  refine h _ rfl (fun r hr => ?_) (Function.update_self ..)
  rw [Frame.value_define, if_neg (Nat.ne_of_lt hr)]

/-- Sign extension of a word by a constant that is there. -/
theorem ends_signed {a sh : ValueRef} (hsh : sh < n) (hval : (f.value sh).lo64 = 32)
    {g : ValueRef → Emit InstStatus} {m : Machine} (h : ∀ r n1 f1, n ≤ n1 → r < n1 → Keeps n f f1 →
      (f1.value r).lo64 = ((f.value a).lo64.setWidth 32).signExtend 64 → Ends (g r) n1 f1 m) :
    Ends (do
      let x1 ← em.lsl a sh .x
      let x2 ← em.asr x1 sh .x
      g x2) n f m := by
  have hamount {f1 : Frame} (h : (f1.value sh).lo64 = 32) : amount64 (f1.value sh).lo64 = 32 := by
    rw [h]
    exact amount64_ofNat (by decide : 32 < 64)
  refine Ends.of_computes (computes_of_rule fun _ => em.wp_lsl .x) fun x1 n1 f1 hle1 hx1 hkeep1 hval1 => ?_
  have hval2 := (congrArg Value.lo64 (hkeep1.value sh hsh)).trans hval
  refine Ends.of_computes (computes_of_rule fun _ => em.wp_asr .x) fun x2 n2 f2 hle2 hx2 hkeep2 hval3 => ?_
  refine h x2 n2 f2 (hle1.trans hle2) hx2 (hkeep1.trans hkeep2 hle1) ?_
  rw [hval3, lo64_binaryValue, hamount hval2, hval1, lo64_binaryValue, hamount hval]
  exact Lanes.shiftLeft_sshiftRight (by decide : 32 ≤ 64) _

/-- What a signed word writes. -/
theorem put_loadSigned (m m' : Machine) (addr : U64) (rt : Nat) (ty : Ty) :
    m.writeX rt (((Value.mk ty (read 128 m'.memory addr 4)).lo64.setWidth 32).signExtend 64) =
      (Guest.Transfer.loadSigned 64).put rt (Guest.memRead m' addr 4) m := by
  have hdata : (Value.mk ty (read 128 m'.memory addr 4)).lo64.setWidth 32 = Guest.memRead m' addr 4 := by
    rw [Guest.memRead, Value.lo64, BitVec.setWidth_setWidth_of_le _ (by decide), setWidth_read (by decide)]
  rw [hdata, Guest.Transfer.put, Guest.setX, BitVec.setWidth_eq]

/-- The accesses of two signed words, and what comes after them. -/
theorem ends_signedPair {a a2 : ValueRef} (ha2 : a2 < n) (hnext : (f.value a2).lo64 = (f.value a).lo64 + 4)
    {rt rt2 : U8} {q : Emit InstStatus} {m : Machine}
    (hq : ∀ n1 f1, (∀ r < n, f1.value r = f.value r) →
      f1.machine = (Guest.Transfer.loadSigned 64).execPair 4 rt.toNat rt2.toNat (f.value a).lo64 f.machine →
        Ends q n1 f1 m) :
    Ends (do
      let lo ← em.load a 4
      let hi ← em.load a2 4
      let sh ← em.constU64 32
      let lo1 ← em.lsl lo sh .x
      let loSx ← em.asr lo1 sh .x
      let hi1 ← em.lsl hi sh .x
      let hiSx ← em.asr hi1 sh .x
      em.setX rt loSx
      em.setX rt2 hiSx
      q) n f m := by
  refine ends_load (k := 2) (by decide) fun f1 hm1 hkeep1 hv1 => ?_
  refine ends_load (k := 2) (by decide) fun f2 hm2 hkeep2 hv2 => ?_
  rw [hkeep1 a2 ha2, hm1] at hm2 hv2
  refine Ends.of_computes (computes_constU64 32) fun sh n3 f3 hle3 hsh hkeep3 hval3 => ?_
  have hlo : n < n + 1 + 1 := Nat.lt_succ_of_lt (Nat.lt_succ_self n)
  refine ends_signed hsh hval3 fun lo n4 f4 hle4 hlo4 hkeep4 hval4 => ?_
  have hhi : n + 1 < n3 := Nat.lt_of_lt_of_le (Nat.lt_succ_self _) hle3
  refine ends_signed (Nat.lt_of_lt_of_le hsh hle4)
    ((congrArg Value.lo64 (hkeep4.value sh hsh)).trans hval3) fun hi n5 f5 hle5 hhi5 hkeep5 hval5 => ?_
  rw [hkeep3.value n hlo, hkeep2 n (Nat.lt_succ_self n), hv1] at hval4
  rw [hkeep4.value _ hhi, hkeep3.value _ (Nat.lt_succ_self _), hv2] at hval5
  rw [← hkeep5.value lo hlo4] at hval4
  refine Ends.of_does (does_setX rt lo hval4) fun n6 f6 hle6 hkeep6 hm6 => ?_
  refine Ends.of_does (does_setX rt2 hi ((congrArg Value.lo64 (hkeep6 hi hhi5)).trans hval5))
    fun n7 f7 _ hkeep7 hm7 => ?_
  refine hq n7 f7 (fun r hr => ?_) ?_
  · have hr2 : r < n + 1 + 1 := Nat.lt_succ_of_lt (Nat.lt_succ_of_lt hr)
    have hr4 := Nat.lt_of_lt_of_le hr2 (hle3.trans hle4)
    rw [hkeep7 r (Nat.lt_of_lt_of_le hr4 (hle5.trans hle6)), hkeep6 r (Nat.lt_of_lt_of_le hr4 hle5),
      hkeep5.value r hr4, hkeep4.value r (Nat.lt_of_lt_of_le hr2 hle3), hkeep3.value r hr2,
      hkeep2 r (Nat.lt_succ_of_lt hr), hkeep1 r hr]
  · rw [hm7, hm6, hkeep5.machine, hkeep4.machine, hkeep3.machine, hm2]
    have hlo := put_loadSigned ((f.machine.load (f.value a).lo64 4).load (f.value a2).lo64 4)
      f.machine (f.value a).lo64
      rt.toNat .u32
    have hhi := put_loadSigned ((Guest.Transfer.loadSigned 64).put rt.toNat
      (Guest.memRead f.machine (f.value a).lo64 4)
      ((f.machine.load (f.value a).lo64 4).load (f.value a2).lo64 4)) f.machine (f.value a2).lo64 rt2.toNat .u32
    rw [← hlo] at hhi
    refine hhi.trans ?_
    rw [hlo, hnext]
    rfl

theorem ends_ldpsw {raw : U32} (mode : IdxMode) : Ends (ldpsw em raw mode) n f
    (Guest.indexed mode.index (bits raw 5 5) (imm7 raw 2)
      ((Guest.Transfer.loadSigned 64).execPair 4 (bits raw 0 5) (bits raw 10 5)) f.machine) := by
  rw [ldpsw]
  refine ends_offset fun base addr n1 f1 hbase haddr hm hval1 hval2 => ?_
  have haccess : (if mode = .post then base else addr) < n1 := by split <;> assumption
  refine ends_second haccess fun addr2 n2 f2 hle2 haddr2 hkeep2 hnext => ?_
  rw [← hkeep2.value _ haccess] at hnext
  refine ends_signedPair haddr2 hnext fun n3 f3 hkeep3 hm3 => ?_
  rw [hkeep2.value _ haccess, hkeep2.machine, hm] at hm3
  have haddr3 := (hkeep3 addr (Nat.lt_of_lt_of_le haddr hle2)).trans (hkeep2.value addr haddr)
  rw [toNat_regField] at hval1 hval2
  rw [toNat_regField, toNat_regField] at hm3
  cases mode with
  | off =>
    rw [if_neg (by decide), hval2] at hm3
    rw [IdxMode.index, Guest.indexed, ← hm3, if_pos rfl]
    exact ends_pure
  | pre =>
    rw [if_neg (by decide), hval2] at hm3
    rw [if_neg (by decide), Ends, Prog.wp_bind, wp_setXOrSp, IdxMode.index, toNat_regField, haddr3, hval2, hm3]
    exact ⟨rfl, rfl⟩
  | post =>
    rw [if_pos rfl, hval1] at hm3
    rw [if_neg (by decide), Ends, Prog.wp_bind, wp_setXOrSp, IdxMode.index, toNat_regField, haddr3, hval2, hm3]
    exact ⟨rfl, rfl⟩

theorem followsArm_ldpsw {raw : U32} (h : LdpswFields raw) (mode : IdxMode) :
    FollowsArm (ldpsw em raw mode) (armPair raw mode.index) n f := by
  obtain ⟨hV, hL, hopc⟩ := h
  rw [followsArm_iff (ends_ldpsw mode), armPair, hV, hL, hopc, imm7_eq]
  exact ⟨_, rfl, rfl⟩

namespace LdstpairOff

def Decoded : LdstpairOff → Prop
  | pair op raw => op.Decoded raw
  | ldpsw raw => LdpswFields raw
  | other _ => True

/-- The instructions of the class that are not translated are left out. -/
def arm : LdstpairOff → Option (Machine → Machine)
  | pair _ raw | ldpsw raw => armPair raw .offset
  | other _ => none

theorem followsArm (insn : LdstpairOff) (h : insn.Decoded) : FollowsArm (insn.translate em) insn.arm n f := by
  cases insn with
  | other raw => exact followsArm_fail
  | ldpsw raw => exact followsArm_ldpsw h .off
  | pair op raw =>
    refine followsArm_pair h ?_ ?_
    · intro hs
      rw [translate, hs]
      exact ⟨_, rfl⟩
    · intro scale sizeBytes sizeKind hs
      rw [translate, hs]
      refine ends_offset fun base addr n1 f1 _ haddr hm _ hval => ?_
      refine ends_second haddr fun addr2 n2 f2 hle haddr2 hkeep hnext => ?_
      rw [← hkeep.value addr haddr] at hnext hval
      refine Ends.of_does (does_emitPair hs (Nat.lt_of_lt_of_le haddr hle) haddr2 hnext) fun n3 f3 _ _ hm3 => ?_
      rw [hval, hkeep.machine, hm, toNat_regField, toNat_regField, toNat_regField] at hm3
      rw [Guest.indexed, ← hm3]
      exact ends_pure

end LdstpairOff

namespace LdstpairIndexed

/-- The class has two modes. -/
def Indexes (raw : U32) : Prop := bits raw 23 3 = 0b001 ∨ bits raw 23 3 = 0b011

def Decoded : LdstpairIndexed → Prop
  | pair op raw => op.Decoded raw ∧ Indexes raw
  | ldpsw raw => LdpswFields raw ∧ Indexes raw
  | other _ => True

def mode (raw : U32) : IdxMode := if bits raw 23 3 = 0b001 then .post else .pre

def arm : LdstpairIndexed → Option (Machine → Machine)
  | pair _ raw | ldpsw raw => armPair raw (mode raw).index
  | other _ => none

theorem followsArm (insn : LdstpairIndexed) (h : insn.Decoded) :
    FollowsArm (insn.translate em) insn.arm n f := by
  cases insn with
  | other raw => exact followsArm_fail
  | ldpsw raw => exact followsArm_ldpsw h.1 (mode raw)
  | pair op raw =>
    refine followsArm_pair h.1 ?_ ?_
    · intro hs
      rw [translate, hs]
      exact ⟨_, rfl⟩
    · intro scale sizeBytes sizeKind hs
      rw [translate, hs]
      refine ends_offset fun base addr n1 f1 hbase haddr hm hval1 hval2 => ?_
      have haccess : (if bits raw 23 3 = 0b001 then base else addr) < n1 := by split <;> assumption
      refine ends_second haccess fun addr2 n2 f2 hle haddr2 hkeep hnext => ?_
      rw [← hkeep.value _ haccess] at hnext
      refine Ends.of_does (does_emitPair hs (Nat.lt_of_lt_of_le haccess hle) haddr2 hnext)
        fun n3 f3 _ hkeep3 hm3 => ?_
      have haddr3 := (hkeep3 addr (Nat.lt_of_lt_of_le haddr hle)).trans (hkeep.value addr haddr)
      rw [Ends, Prog.wp_bind, wp_setXOrSp, haddr3, hm3, hkeep.value _ haccess, hkeep.machine, hm]
      rw [toNat_regField] at hval1 hval2
      rw [toNat_regField, toNat_regField, toNat_regField, mode, hval2]
      refine ⟨rfl, ?_⟩
      split
      · rw [hval1]
        rfl
      · rw [hval2]
        rfl

end LdstpairIndexed

/-! ## Literals follow the architecture -/

namespace Loadlit

/-- The fields that the decoder read a literal from. -/
def Decoded : Loadlit → Prop
  | ldrRtAddrPcrel19 raw => bit raw 26 = 0 ∧ bits raw 30 2 < 0b10
  | ldrswRtAddrPcrel19 raw => bit raw 26 = 0 ∧ bits raw 30 2 = 0b10
  | ldrFtAddrPcrel19 raw => bit raw 26 = 1
  | prfmPrfopAddrPcrel19 raw => bit raw 26 = 0 ∧ bits raw 30 2 = 0b11

/-- The instruction of a word at an address. -/
def armLiteral (pc : U64) (raw : U32) : Option (Machine → Machine) :=
  (Guest.decodeLiteral (bits raw 30 2) (bit raw 26)).map fun (transfer, scale) =>
    transfer.exec (2 ^ scale) (bits raw 0 5) (pc + (BitVec.ofNat 21 (bits raw 5 19 <<< 2)).signExtend 64)

def arm (pc : U64) : Loadlit → Option (Machine → Machine)
  | ldrRtAddrPcrel19 raw | ldrswRtAddrPcrel19 raw | ldrFtAddrPcrel19 raw | prfmPrfopAddrPcrel19 raw =>
    armLiteral pc raw

theorem offset_eq (raw : U32) : signExtend (BitVec.ofNat 64 (bits raw 5 19) <<< 2) 21 =
    (BitVec.ofNat 21 (bits raw 5 19 <<< 2)).signExtend 64 := by
  have hshift : BitVec.ofNat 64 (bits raw 5 19) <<< 2 = BitVec.ofNat 64 (bits raw 5 19 <<< 2) :=
    BitVec.eq_of_toNat_eq (by simp [Nat.shiftLeft_eq])
  rw [signExtend_eq _ (by decide), hshift, BitVec.setWidth_ofNat_of_le (by decide)]

/-- A literal whose code is an access. -/
theorem followsArm_of_access {raw : U32} (kind : AccessKind) (targetX : Bool) (size k : Nat) (hk : k ≤ 4)
    (hsize : kind.isFp = false → k = size ∧ size ≤ 3) (hsigned : kind = .loadS → size ≤ 2)
    (hcode : ∀ addr, emitLiteral em raw (regField raw 0) addr =
      (emitAccess em kind targetX raw size (2 ^ k) (regField raw 0) addr >>= fun _ => pure .continues))
    (harm : Guest.decodeLiteral (bits raw 30 2) (bit raw 26) = some (kind.transfer targetX, k)) :
    FollowsArm (do
      let addr ← em.constU64 (em.currentPc + signExtend (BitVec.ofNat 64 (bits raw 5 19) <<< 2) 21)
      emitLiteral em raw (regField raw 0) addr) (armLiteral em.currentPc raw) n f := by
  have hends : Ends (do
      let addr ← em.constU64 (em.currentPc + signExtend (BitVec.ofNat 64 (bits raw 5 19) <<< 2) 21)
      emitLiteral em raw (regField raw 0) addr) n f ((kind.transfer targetX).exec (2 ^ k) (bits raw 0 5)
        (em.currentPc + (BitVec.ofNat 21 (bits raw 5 19 <<< 2)).signExtend 64) f.machine) := by
    refine Ends.of_computes (computes_constU64 _) fun addr n1 f1 _ haddr hkeep hval => ?_
    rw [hcode]
    refine Ends.of_does (does_emitAccess kind haddr hk hsize hsigned) fun n2 f2 _ _ hm => ?_
    rw [hval, offset_eq, hkeep.machine, toNat_regField] at hm
    rw [← hm]
    exact ends_pure
  rw [followsArm_iff hends, armLiteral, harm]
  exact ⟨_, rfl, rfl⟩

/-- The register of a literal is by the two fields. -/
theorem followsArm_emitLiteral {raw : U32} (h : bit raw 26 = 1 ∨ bits raw 30 2 < 0b11) :
    FollowsArm (do
      let addr ← em.constU64 (em.currentPc + signExtend (BitVec.ofNat 64 (bits raw 5 19) <<< 2) 21)
      emitLiteral em raw (regField raw 0) addr) (armLiteral em.currentPc raw) n f := by
  have hlt := bits_lt raw 30 (by decide : 2 < 32)
  have hopc : bits raw 30 2 = 0 ∨ bits raw 30 2 = 1 ∨ bits raw 30 2 = 2 ∨ bits raw 30 2 = 3 := by omega
  rcases bit_cases raw 26 with hV | hV
  · rcases hopc with hopc | hopc | hopc | hopc
    · refine followsArm_of_access .loadU false 2 2 (by decide) (by simp) nofun (fun addr => ?_)
        (by rw [hV, hopc]; rfl)
      rw [emitLiteral, hV, hopc]
      rfl
    · refine followsArm_of_access .loadU true 3 3 (by decide) (by simp) nofun (fun addr => ?_)
        (by rw [hV, hopc]; rfl)
      rw [emitLiteral, hV, hopc]
      rfl
    · refine followsArm_of_access .loadS true 2 2 (by decide) (by simp) (by simp) (fun addr => ?_)
        (by rw [hV, hopc]; rfl)
      rw [emitLiteral, hV, hopc]
      rfl
    · omega
  · rcases hopc with hopc | hopc | hopc | hopc
    · refine followsArm_of_access .fpLoad false 2 2 (by decide) nofun nofun (fun addr => ?_)
        (by rw [hV, hopc]; rfl)
      rw [emitLiteral, hV, hopc]
      rfl
    · refine followsArm_of_access .fpLoad false 3 3 (by decide) nofun nofun (fun addr => ?_)
        (by rw [hV, hopc]; rfl)
      rw [emitLiteral, hV, hopc]
      rfl
    · refine followsArm_of_access .fpLoad false 4 4 (by decide) nofun nofun (fun addr => ?_)
        (by rw [hV, hopc]; rfl)
      rw [emitLiteral, hV, hopc]
      rfl
    · -- The address is made before the field is rejected.
      refine followsArm_rejected fun addr m st hst => ?_
      rw [emitLiteral, hV, hopc] at hst
      cases hst

theorem followsArm (insn : Loadlit) (h : insn.Decoded) :
    FollowsArm (insn.translate em) (insn.arm em.currentPc) n f := by
  cases insn with
  | ldrRtAddrPcrel19 raw => exact followsArm_emitLiteral (.inr (Nat.lt_succ_of_lt h.2))
  | ldrswRtAddrPcrel19 raw => exact followsArm_emitLiteral (.inr (h.2.trans_lt (by decide)))
  | ldrFtAddrPcrel19 raw => exact followsArm_emitLiteral (.inl h)
  | prfmPrfopAddrPcrel19 raw =>
    rw [translate, arm, armLiteral, h.1, h.2, followsArm_iff ends_pure]
    exact ⟨_, rfl, rfl⟩

end Loadlit

/-! ## All classes -/

/-- A load or store of one of the classes. -/
inductive LoadStoreInsn where
  | pos (insn : LdstPos)
  | unscaled (insn : LdstUnscaled)
  | imm9 (insn : LdstImm9)
  | regoff (insn : LdstRegoff)
  | pairOff (insn : LdstpairOff)
  | pairIndexed (insn : LdstpairIndexed)
  | literal (insn : Loadlit)

namespace LoadStoreInsn

def translate (em : IrEmitter) : LoadStoreInsn → Emit InstStatus
  | pos insn => insn.translate em
  | unscaled insn => insn.translate em
  | imm9 insn => insn.translate em
  | regoff insn => insn.translate em
  | pairOff insn => insn.translate em
  | pairIndexed insn => insn.translate em
  | literal insn => insn.translate em

/-- The instruction of the architecture at an address. -/
def arm (pc : U64) : LoadStoreInsn → Option (Machine → Machine)
  | pos insn => insn.arm
  | unscaled insn => insn.arm
  | imm9 insn => insn.arm
  | regoff insn => insn.arm
  | pairOff insn => insn.arm
  | pairIndexed insn => insn.arm
  | literal insn => insn.arm pc

/-- The fields that the decoder promises. -/
def Decoded : LoadStoreInsn → Prop
  | pos insn => insn.Decoded
  | unscaled insn => insn.Decoded
  | imm9 insn => insn.Decoded
  | regoff insn => insn.Decoded
  | pairOff insn => insn.Decoded
  | pairIndexed insn => insn.Decoded
  | literal insn => insn.Decoded

/-- What is accepted though the architecture has no instruction there: accesses of vector registers
by words of another size with the `opc` of 16 bytes, and prefetches with a reserved extension. -/
def Unallocated : LoadStoreInsn → Prop
  | pos insn => insn.Unallocated
  | unscaled insn => insn.Unallocated
  | imm9 insn => insn.Unallocated
  | regoff insn => insn.Unallocated
  | pairOff _ | pairIndexed _ | literal _ => False

end LoadStoreInsn

/-- **What is accepted is the instruction of the architecture**, in its accesses, registers and
base, except for the encodings that are unallocated. -/
theorem load_store_follows_arm (insn : LoadStoreInsn) (hdecoded : insn.Decoded) (em : IrEmitter)
    (n : Nat) (f : Frame) :
    FollowsArm (insn.translate em) (insn.arm em.currentPc) n f ↔ ¬ insn.Unallocated := by
  cases insn with
  | pos insn => exact insn.followsArm hdecoded
  | unscaled insn => exact insn.followsArm hdecoded
  | imm9 insn => exact insn.followsArm hdecoded
  | regoff insn => exact insn.followsArm hdecoded
  | pairOff insn => exact iff_of_true (insn.followsArm hdecoded) not_false
  | pairIndexed insn => exact iff_of_true (insn.followsArm hdecoded) not_false
  | literal insn => exact iff_of_true (insn.followsArm hdecoded) not_false

/-- `LDR X0, [X1, #8]`. -/
theorem load_store_follows_arm_ldr : (LoadStoreInsn.pos (.access .ldr 0xF9400420)).Decoded ∧
    (FollowsArm ((LoadStoreInsn.pos (.access .ldr 0xF9400420)).translate ⟨0⟩)
        ((LoadStoreInsn.pos (.access .ldr 0xF9400420)).arm 0) 1
        ⟨⟨fun _ => 16, 0, 0, fun _ => 0, fun _ => 7, []⟩, fun _ => ⟨.void, 0⟩⟩ ↔
      ¬ (LoadStoreInsn.pos (.access .ldr 0xF9400420)).Unallocated) := by
  have hdecoded : (LoadStoreInsn.pos (.access .ldr 0xF9400420)).Decoded :=
    show bit 0xF9400420 26 = 0 ∧ bits 0xF9400420 22 2 = 0b01 ∧ 2 ≤ bits 0xF9400420 30 2 by decide
  exact ⟨hdecoded, load_store_follows_arm (.pos (.access .ldr 0xF9400420)) hdecoded ⟨0⟩ 1 _⟩

/-- A word with the size of two bytes and the `opc` of sixteen is taken for a load of two bytes. -/
theorem load_half_of_unallocated : ∃ (insn : LoadStoreInsn) (em : IrEmitter) (n : Nat) (f : Frame),
    insn.Decoded ∧
    ¬ FollowsArm (insn.translate em) (insn.arm em.currentPc) n f := by
  have hdecoded : (LdstPos.access .ldrFt 0x7DC00020).Decoded :=
    show bit 0x7DC00020 26 = 1 ∧ bit 0x7DC00020 22 = 1 by decide
  have hunallocated : (LdstPos.access .ldrFt 0x7DC00020).Unallocated :=
    show LdstOp.ldrFt.kind.isFp = true ∧ bits 0x7DC00020 30 2 ≠ 0 ∧ bit 0x7DC00020 23 = 1 by decide
  refine ⟨.pos (.access .ldrFt 0x7DC00020), ⟨0⟩, 1, ⟨⟨fun _ => 16, 0, 0, fun _ => 0, fun _ => 7, []⟩,
    fun _ => ⟨.void, 0⟩⟩, hdecoded, ?_⟩
  exact fun h => (LdstPos.followsArm _ hdecoded).mp h hunallocated

end Rustarmic
