import Rustarmic.Frontend.Relocation
import Rustarmic.Frontend.Simulation

/-!
# The front end

`GuestInsn` is an instruction of a class that is modelled whole: data processing, bitfields, loads
and stores, moves and addresses, counts of bits, system instructions and branches.  A front end
decodes words to these instructions, or to what another family translator emits.

Blocks and runs of blocks are compared with runs of the architecture, and a run of the architecture
goes on only as long as `FrontEnd.guest` says what the next instruction does.  Of the modelled
classes it leaves open what the architecture reserves and what the translators reject, and moreover

* additions and subtractions that set the flags (CMN and CMP among them) from the stack pointer, for
  which the architecture takes SP and the code zero;
* MRS and MSR (of a register or of a field of the processor state), CLREX, and SYS other than DC
  ZVA: the guest here has general and vector registers, SP, the flags and memory, but no system
  registers and no exclusive monitor;
* pointer authentication, which depends on keys and on what the implementation has.

So nothing is said of a run behind such an instruction.  A front end may have other families too:
their instructions are open as well, and all that is assumed of their translators is that a node's
arguments come before the node.

* `GuestInsn.emission`, `placed_emission` — what a translator emits, and that it emits it wherever
  it stands.
* `GuestInsn.follows` — it does what the architecture says.
* `FrontEnd.translateBlock_follows` — and so do blocks.
* `FrontEnd.dispatch_follows` — and runs from block to block.
-/

set_option autoImplicit false

namespace Rustarmic

open Emitting Interp

instance (insn : AddSubInsn) : Decidable insn.Allocated :=
  match insn with
  | .imm insn => inferInstanceAs (Decidable (insn.fields.isSome = true))
  | .ext insn => inferInstanceAs (Decidable (bits insn.fields.1 10 3 ≤ 4))

inductive GuestInsn where
  | addSub (insn : AddSubInsn)
  | bitfield (insn : BitfieldInsn)
  | data (insn : DataInsn)
  | loadStore (insn : LoadStoreInsn)
  | movewide (insn : Movewide)
  | pcreladdr (insn : Pcreladdr)
  | dp1src (insn : Dp1src)
  | icSystem (insn : IcSystem)
  | branch (insn : BranchInsn)

/-- How a translator ends: its status, and the terminal that it sets. -/
abbrev Ending := InstStatus × Option Terminal

/-- A translator that sets no terminal. -/
def plain (p : Emit InstStatus) : Emit Ending := p >>= fun st => pure (st, none)

namespace GuestInsn

def translate (em : IrEmitter) : GuestInsn → Emit Ending
  | addSub insn => plain (insn.translate em)
  | bitfield insn => plain (insn.translate em)
  | data insn => plain (insn.translate em)
  | loadStore insn => plain (insn.translate em)
  | movewide insn => plain (insn.translate em)
  | pcreladdr insn => plain (insn.translate em)
  | dp1src insn => plain (insn.translate em)
  | icSystem insn => plain (insn.translate em)
  | branch insn => insn.translate em >>= fun t => pure (.terminator, some t)

/-- What the decoder promises of an instruction. -/
def Decoded : GuestInsn → Prop
  | data insn => insn.Decoded
  | loadStore insn => insn.Decoded
  | _ => True

/-- The instruction of the architecture at an address, unless it is a branch.  Left open are
encodings that are reserved, additions that set the flags from the stack pointer, for which the code
reads zero, and what `Dp1src.arm` and `IcSystem.arm` leave open. -/
def armPlain (pc : U64) : GuestInsn → Option (Machine → Machine)
  | addSub insn => insn.fields.bind fun p =>
      if insn.Allocated ∧ ¬ (p.2.2 = true ∧ bits p.1 5 5 = zrEncoding) then some insn.arm else none
  | bitfield insn => if insn.Accepted then some insn.arm else none
  | data insn => insn.arm
  | loadStore insn => insn.arm pc
  | movewide insn => insn.arm
  | pcreladdr insn => insn.arm pc
  | dp1src insn => insn.arm
  | icSystem insn => insn.arm
  | branch _ => none

/-- The instruction of the architecture: what it leaves, and where it leads. -/
def arm (pc : U64) (m : Machine) : GuestInsn → Option (Machine × Control)
  | branch insn => insn.arm.map fun b => b.exec pc m
  | insn => (insn.armPlain pc).map fun exec => (exec m, .goto (pc + 4))

end GuestInsn

/-! ## Wherever it stands -/

/-- The endings of two runs: the status tells whether there is a terminal, and its value moves. -/
def EndsAlike (d : Nat) (e e' : Ending) : Prop :=
  e.1 = (if e.2.isSome then .terminator else .continues) ∧ e' = (e.1, e.2.map fun t => t.mapValue (shifted d))

variable {em : IrEmitter} {d n : Nat}

theorem Continues.plain {p p' : Emit InstStatus} (h : Continues em d p p' n) :
    Relocates em d (plain p) (Rustarmic.plain p') n fun e e' _ => EndsAlike d e e' := by
  refine Prog.Alike.bind h ?_
  rintro _ _ m _ ⟨rfl, rfl⟩
  exact ⟨rfl, rfl⟩

/-- **An instruction is translated to the same nodes wherever it stands**, with arguments that come
first, and without a panic. -/
theorem GuestInsn.relocates (insn : GuestInsn) (hn : 0 < n) :
    Relocates em d (insn.translate em) (insn.translate em) n fun e e' _ => EndsAlike d e e' := by
  cases insn with
  | addSub insn =>
    cases insn with
    | imm insn => exact (insn.relocates hn).plain
    | ext insn => exact (insn.relocates hn).plain
  | branch insn =>
    refine Prog.Alike.bind (insn.relocates hn) ?_
    rintro t _ m _ rfl
    exact ⟨rfl, rfl⟩
  | _ insn => exact (insn.relocates hn).plain

namespace GuestInsn

/-- What the translator emits, its values counted from its first node.  It never panics. -/
def emission (insn : GuestInsn) (pc : U64) : Emission where
  nodes := (insn.translate ⟨pc⟩).nodes 1
  outcome :=
    match (insn.translate ⟨pc⟩).result 1 with
    | .ok (_, some t) => .terminator t
    | .ok (_, none) => .continues
    | .error (.error e) => .error e
    | .error .panic => .error (.unsupported pc 0)

variable {insn : GuestInsn} {pc : U64} {base : Nat}

/-- The translator at the end of a block. -/
theorem alike_at (insn : GuestInsn) (pc : U64) (hbase : 0 < base) :
    ∃ d, base = 1 + d ∧ Relocates ⟨pc⟩ d (insn.translate ⟨pc⟩) (insn.translate ⟨pc⟩) 1
      fun e e' _ => EndsAlike d e e' := by
  obtain ⟨d, rfl⟩ := Nat.exists_eq_add_of_lt hbase
  refine ⟨d, by omega, insn.relocates Nat.one_pos⟩

/-- **The nodes that are pushed are those of the emission.** -/
theorem placed_emission (insn : GuestInsn) (pc : U64) (hbase : 0 < base) :
    (insn.emission pc).placed base pc = (insn.translate ⟨pc⟩).nodes base := by
  obtain ⟨d, rfl, h⟩ := alike_at insn pc hbase
  refine List.ext_getElem? fun i => ?_
  have hlen := h.length
  rw [Emission.placed, emission, List.getElem?_map]
  cases ha : ((insn.translate ⟨pc⟩).nodes 1)[i]? with
  | none =>
    rw [List.getElem?_eq_none_iff, ← hlen, ← List.getElem?_eq_none_iff] at ha
    exact ha.symm
  | some a =>
    obtain ⟨a', ha'⟩ : ∃ a', ((insn.translate ⟨pc⟩).nodes (1 + d))[i]? = some a' := by
      have hlt := (List.getElem?_eq_some_iff.mp ha).1
      exact ⟨_, List.getElem?_eq_getElem (hlen.symm ▸ hlt)⟩
    have hmoves := h.nodes ha ha'
    obtain rfl : a.pc = pc := hmoves.pc_eq
    rw [ha', hmoves.eq, Option.map_some]
    exact congrArg (fun k => some (a.mapArgs (Emission.valueAt k))) (Nat.add_comm 1 d)

/-- Its arguments come first. -/
theorem scoped_emission (insn : GuestInsn) (pc : U64) : Block.Scoped 1 (insn.emission pc).nodes := by
  intro i a ha k
  have h : Relocates ⟨pc⟩ 0 (insn.translate ⟨pc⟩) (insn.translate ⟨pc⟩) 1 _ := insn.relocates Nat.one_pos
  exact (h.nodes ha ha).args_lt k

/-- The end is that of the emission. -/
theorem result_translate (insn : GuestInsn) (pc : U64) (hbase : 0 < base) :
    (∃ e, (insn.emission pc).outcome = .error e ∧ (insn.translate ⟨pc⟩).result base = .error (.error e)) ∨
      ((insn.emission pc).outcome = .continues ∧ (insn.translate ⟨pc⟩).result base = .ok (.continues, none)) ∨
      ∃ t, (insn.emission pc).outcome = .terminator t ∧ (insn.translate ⟨pc⟩).result base =
        .ok (.terminator, some (t.mapValue (Emission.valueAt base))) := by
  obtain ⟨d, rfl, h⟩ := alike_at insn pc hbase
  rcases h.result with ⟨⟨st, t⟩, _, hres, hres', hst, rfl⟩ | ⟨e, hres, hres', hok⟩
  · cases t with
    | none =>
      obtain rfl : st = .continues := hst
      refine .inr (.inl ⟨?_, hres'⟩)
      rw [emission, hres]
    | some t =>
      obtain rfl : st = .terminator := hst
      refine .inr (.inr ⟨t, ?_, ?_⟩)
      · rw [emission, hres]
      · rw [hres', Nat.add_comm 1 d]
        rfl
  · cases e with
    | panic => exact absurd rfl hok
    | error e =>
      refine .inl ⟨e, ?_, hres'⟩
      rw [emission, hres]

/-- **A translator emits the same nodes wherever a block stands**: at the end of any block it pushes
those of the emission, whose arguments come first, and ends as the emission says, without a
panic. -/
theorem place_translate (insn : GuestInsn) (pc : U64) {b : Block} (hpos : 0 < b.code.size) :
    (IrEmitter.place (insn.translate ⟨pc⟩) b).1 = b.pushAll ((insn.emission pc).placed b.code.size pc) ∧
      Block.Scoped 1 (insn.emission pc).nodes ∧
      ((∃ e, (insn.emission pc).outcome = .error e ∧
          (IrEmitter.place (insn.translate ⟨pc⟩) b).2 = .error (.error e)) ∨
        ((insn.emission pc).outcome = .continues ∧
          (IrEmitter.place (insn.translate ⟨pc⟩) b).2 = .ok (.continues, none)) ∨
        ∃ t, (insn.emission pc).outcome = .terminator t ∧ (IrEmitter.place (insn.translate ⟨pc⟩) b).2 =
          .ok (.terminator, some (t.mapValue (Emission.valueAt b.code.size)))) := by
  rw [IrEmitter.place_eq, placed_emission insn pc hpos]
  exact ⟨rfl, scoped_emission insn pc, result_translate insn pc hpos⟩

/-- `tbz w3, #5, 8`, behind two nodes. -/
theorem place_translate_tbz : ∃ b : Block, b.code.size = 3 ∧
    (IrEmitter.place ((branch (.testbranch (.tbzRtBitNumAddrPcrel14 0x36280043))).translate ⟨0x1000⟩) b).1 =
      b.pushAll
        (((branch (.testbranch (.tbzRtBitNumAddrPcrel14 0x36280043))).emission 0x1000).placed 3 0x1000) := by
  have hsize :
      ((Block.new 0x1000).pushAll [Armlet.new .getNzcv .nzcv, Armlet.new .getNzcv .nzcv]).code.size = 3 := rfl
  refine ⟨_, hsize, ?_⟩
  have h := (place_translate (branch (.testbranch (.tbzRtBitNumAddrPcrel14 0x36280043))) 0x1000
    (hsize ▸ Nat.succ_pos 2 : 0 < ((Block.new 0x1000).pushAll [Armlet.new .getNzcv .nzcv,
      Armlet.new .getNzcv .nzcv]).code.size)).1
  rwa [hsize] at h

end GuestInsn

/-! ## Loads and stores -/

namespace Guest

variable {m : Machine}

theorem nzcv_setX {N : Nat} (d : Nat) (x : BitVec N) : (setX m d x).nzcv = m.nzcv := Armlet.nzcv_writeX ..

theorem nzcv_put (t : Transfer) {N : Nat} (rt : Nat) (data : BitVec N) : (t.put rt data m).nzcv = m.nzcv := by
  cases t <;> first | exact nzcv_setX .. | rfl

theorem nzcv_exec (t : Transfer) (bytes rt : Nat) (addr : U64) : (t.exec bytes rt addr m).nzcv = m.nzcv := by
  rw [Transfer.exec]
  split
  · rfl
  · split
    · exact nzcv_put ..
    · rfl

theorem nzcv_execPair (t : Transfer) (bytes rt rt2 : Nat) (addr : U64) :
    (t.execPair bytes rt rt2 addr m).nzcv = m.nzcv := by
  rw [Transfer.execPair]
  split
  · rw [nzcv_put, nzcv_put]
    rfl
  · rfl

theorem nzcv_indexed {access : U64 → Machine → Machine} (haccess : ∀ addr m, (access addr m).nzcv = m.nzcv)
    (index : Index) (k : Nat) (offset : U64) : (indexed index k offset access m).nzcv = m.nzcv := by
  have hbase (addr : U64) (m : Machine) : (writeBase m k addr).nzcv = m.nzcv := by
    rw [writeBase]
    split <;> rfl
  cases index with
  | offset => exact haccess ..
  | pre => exact (hbase ..).trans (haccess ..)
  | post => exact (hbase ..).trans (haccess ..)

end Guest

namespace LoadStoreInsn

theorem nzcv_armSingle {raw : U32} {index : Guest.Index} {offset : Machine → Nat → U64}
    {exec : Machine → Machine}
    (h : armSingle raw index offset = some exec) (m : Machine) : (exec m).nzcv = m.nzcv := by
  obtain ⟨⟨transfer, scale⟩, -, rfl⟩ := Option.map_eq_some_iff.mp h
  exact Guest.nzcv_indexed (fun _ _ => Guest.nzcv_exec ..) ..

theorem nzcv_armPair {raw : U32} {index : Guest.Index} {exec : Machine → Machine}
    (h : armPair raw index = some exec)
    (m : Machine) : (exec m).nzcv = m.nzcv := by
  obtain ⟨⟨transfer, scale⟩, -, rfl⟩ := Option.map_eq_some_iff.mp h
  exact Guest.nzcv_indexed (fun _ _ => Guest.nzcv_execPair ..) ..

/-- Loads and stores leave the flags alone. -/
theorem nzcv_arm {insn : LoadStoreInsn} {pc : U64} {exec : Machine → Machine} (h : insn.arm pc = some exec)
    (m : Machine) : (exec m).nzcv = m.nzcv := by
  cases insn with
  | pos insn =>
    cases insn <;>
      · rw [arm, LdstPos.arm] at h
        exact nzcv_armSingle h m
  | unscaled insn =>
    rw [arm] at h
    cases insn with
    | other raw => cases h
    | _ =>
      rw [LdstUnscaled.arm] at h
      exact nzcv_armSingle h m
  | imm9 insn =>
    rw [arm] at h
    cases insn with
    | other raw => cases h
    | access op raw =>
      rw [LdstImm9.arm] at h
      exact nzcv_armSingle h m
  | regoff insn =>
    cases insn <;>
      · rw [arm, LdstRegoff.arm] at h
        obtain ⟨-, h⟩ := Option.ite_none_left_eq_some.mp h
        exact nzcv_armSingle h m
  | pairOff insn =>
    rw [arm] at h
    cases insn with
    | other raw => cases h
    | _ =>
      rw [LdstpairOff.arm] at h
      exact nzcv_armPair h m
  | pairIndexed insn =>
    rw [arm] at h
    cases insn with
    | other raw => cases h
    | _ =>
      rw [LdstpairIndexed.arm] at h
      exact nzcv_armPair h m
  | literal insn =>
    cases insn <;>
      · rw [arm, Loadlit.arm] at h
        obtain ⟨⟨transfer, scale⟩, -, rfl⟩ := Option.map_eq_some_iff.mp h
        exact Guest.nzcv_exec ..

/-- What is unallocated is none of the architecture's. -/
theorem arm_of_unallocated {insn : LoadStoreInsn} (hdec : insn.Decoded) (h : insn.Unallocated) (pc : U64) :
    insn.arm pc = none := by
  have hsingle {op : LdstOp} {raw : U32} (hdec : op.Decoded raw) (h : op.Unallocated raw) (index : Guest.Index)
      (offset : Machine → Nat → U64) : armSingle raw index offset = none := by
    rw [armSingle, LdstOp.decodeSingle_eq hdec, if_pos h]
    rfl
  cases insn with
  | pos insn =>
    cases insn with
    | access op raw =>
      rw [arm, LdstPos.arm]
      exact hsingle hdec h _ _
    | prfm raw => exact h.elim
  | unscaled insn =>
    cases insn with
    | access op raw =>
      rw [arm, LdstUnscaled.arm]
      exact hsingle hdec h _ _
    | _ => exact h.elim
  | imm9 insn =>
    cases insn with
    | access op raw =>
      rw [arm, LdstImm9.arm]
      exact hsingle hdec.1 h _ _
    | other raw => exact h.elim
  | regoff insn =>
    cases insn with
    | access op raw =>
      rw [arm, LdstRegoff.arm, if_neg (by rw [h.1]; decide)]
      exact hsingle hdec h.2 _ _
    | prfm raw =>
      rw [arm, LdstRegoff.arm]
      exact if_pos h
  | _ => exact h.elim

end LoadStoreInsn

/-! ## What it does -/

theorem result_plain (p : Emit InstStatus) (n : Nat) :
    (plain p).result n = (p.result n).map fun st => (st, none) := by
  induction p generalizing n with
  | done a => rfl
  | fail e => rfl
  | push node k ih => exact ih n (n + 1)

theorem result_of_plain {p : Emit InstStatus} {e : Ending} (h : (plain p).result n = .ok e) :
    ∃ st, p.result n = .ok st := by
  rw [result_plain] at h
  cases hp : p.result n with
  | ok st => exact ⟨st, rfl⟩
  | error err =>
    rw [hp] at h
    cases h

section does

variable {H : BitHost} {f : Frame}

/-- Where an instruction leads, by its ending. -/
def Ending.leads (e : Ending) (pc : U64) (f : Frame) : Control :=
  match e.2 with
  | none => .goto (pc + 4)
  | some t => t.control f.exitEnv (pc + 4)

/-- The code of a translator does what an instruction does. -/
def NodeFollows (H : BitHost) (em : IrEmitter) (p : Emit Ending) (n : Nat) (f : Frame) (r : Machine × Control) :
    Prop :=
  p.wp (Armlet.nodeStep H) n f fun e _ f' => r = (f'.machine, e.leads em.currentPc f') ∧ FlagsOnly f'.machine

theorem NodeEnds.follows {p : Emit InstStatus} {m : Machine} (h : NodeEnds H p n f m) (hflags : FlagsOnly m) :
    NodeFollows H em (plain p) n f (m, .goto (em.currentPc + 4)) := by
  rw [NodeFollows, plain, Prog.wp_bind]
  refine Prog.wp_mono h ?_
  rintro _ _ f' ⟨rfl, rfl⟩
  exact ⟨rfl, hflags⟩

theorem nodeEnds_of_data {p : Emit InstStatus} {m : Machine}
    (h : p.wp Armlet.dataStep n f fun st _ f' => st = .continues ∧ f'.machine = m) : NodeEnds H p n f m :=
  Prog.wp_mono_step (fun _ _ _ _ => Armlet.nodeStep_of_dataStep) h

theorem nodeEnds_of_step {p : Emit InstStatus} {m : Machine}
    (h : p.wp Armlet.step n f fun st _ f' => st = .continues ∧ f'.machine = m) : NodeEnds H p n f m :=
  nodeEnds_of_data (Prog.wp_mono_step (fun _ _ _ _ => Armlet.dataStep_of_step) h)

theorem nodeEnds_of_translates {p : Emit InstStatus} {arm : Option (Machine → Machine)}
    {exec : Machine → Machine}
    (h : Translates p arm n f) (harm : arm = some exec) : NodeEnds H p n f (exec f.machine) := by
  subst harm
  exact nodeEnds_of_data h

theorem flagsOnly_writeX {m : Machine} (h : FlagsOnly m) (reg : Nat) (x : U64) :
    FlagsOnly (m.writeX reg x) := by
  rw [FlagsOnly, Armlet.nzcv_writeX]
  exact h

namespace AddSubInsn

variable {insn : AddSubInsn} {raw : U32} {sub setFlags : Bool}

/-- Where the translator takes the first operand from where the architecture does. -/
theorem withFirst_first (h : insn.fields = some (raw, sub, setFlags))
    (hsp : ¬ (setFlags = true ∧ bits raw 5 5 = zrEncoding)) (m : Machine) :
    insn.withFirst (first raw setFlags m) m = insn.arm m := by
  rw [arm_eq h, first]
  congr 1
  by_cases hrn : bits raw 5 5 = zrEncoding
  · have hflags : setFlags = false := Bool.eq_false_iff.mpr fun h => hsp ⟨h, hrn⟩
    rw [if_pos ⟨hrn, by rw [hflags]; rfl⟩, if_pos hrn]
  · rw [if_neg fun hand => hrn hand.1, if_neg hrn, Machine.readX, if_neg hrn]

theorem flagsOnly_write {N : Nat} (i : Guest.AddSub) (x y : BitVec N) {m : Machine} (h : FlagsOnly m) :
    FlagsOnly (i.write x y m) := by
  rw [Guest.AddSub.write]
  split
  · rw [FlagsOnly, Armlet.nzcv_writeX]
    exact Guest.addSub_snd_lt ..
  · split
    · exact h
    · exact flagsOnly_writeX h _ _

theorem flagsOnly_arm (insn : AddSubInsn) {m : Machine} (h : FlagsOnly m) : FlagsOnly (insn.arm m) := by
  rw [arm]
  split
  · exact h
  · dsimp only
    split <;> exact flagsOnly_write _ _ _ h

end AddSubInsn

theorem DataInsn.translates (insn : DataInsn) (hdecoded : insn.Decoded) (hflags : FlagsOnly f.machine) :
    Translates (insn.translate em) insn.arm n f := by
  cases insn with
  | addsubShift insn => exact insn.translates em n f
  | logShift insn => exact insn.translates em n f
  | logImm insn => exact insn.translates em n f
  | addsubCarry insn => exact insn.translates em n f
  | condsel insn => exact insn.translates em n f hflags
  | condcmpReg insn => exact insn.translates em n f hflags
  | condcmpImm insn => exact insn.translates em n f hflags
  | dp3src insn => exact insn.translates em n f
  | dp2src insn => exact insn.translates hdecoded em n f
  | extract insn => exact insn.translates em n f

/-- What is allocated is translated to what the architecture says. -/
theorem LoadStoreInsn.followsArm {insn : LoadStoreInsn} (hdecoded : insn.Decoded) (h : ¬ insn.Unallocated) :
    FollowsArm (insn.translate em) (insn.arm em.currentPc) n f := by
  cases insn with
  | pos insn => exact (insn.followsArm hdecoded).mpr h
  | unscaled insn => exact (insn.followsArm hdecoded).mpr h
  | imm9 insn => exact (insn.followsArm hdecoded).mpr h
  | regoff insn => exact (insn.followsArm hdecoded).mpr h
  | pairOff insn => exact insn.followsArm hdecoded
  | pairIndexed insn => exact insn.followsArm hdecoded
  | literal insn => exact insn.followsArm hdecoded

theorem IcSystem.nzcv_zeroBlock (rt : Nat) (m : Machine) : (zeroBlock rt m).nzcv = m.nzcv := by
  rw [zeroBlock]
  generalize List.range 8 = ks
  suffices h : ∀ m' : Machine,
      (ks.foldl (fun m' k => m'.store ((m.readX rt &&& ~~~63#64) + BitVec.ofNat 64 (8 * k)) 8 0)
      m').nzcv = m'.nzcv from h m
  induction ks with
  | nil => exact fun _ => rfl
  | cons k ks ih => exact fun m' => (ih _).trans rfl

theorem IcSystem.flagsOnly_arm {insn : IcSystem} {exec : Machine → Machine} (harm : insn.arm = some exec)
    {m : Machine} (h : FlagsOnly m) : FlagsOnly (exec m) := by
  cases insn with
  | sys raw =>
    obtain ⟨-, ⟨⟩⟩ := Option.ite_none_right_eq_some.mp harm
    rw [FlagsOnly, nzcv_zeroBlock]
    exact h
  | _ => cases harm <;> exact h

theorem Movewide.flagsOnly_arm {insn : Movewide} {exec : Machine → Machine} (harm : insn.arm = some exec)
    {m : Machine} (h : FlagsOnly m) : FlagsOnly (exec m) := by
  rw [arm] at harm
  dsimp only at harm
  obtain ⟨-, ⟨⟩⟩ := Option.ite_none_left_eq_some.mp harm
  exact Guest.flagsOnly_setX h ..

theorem Dp1src.flagsOnly_arm {insn : Dp1src} {exec : Machine → Machine} (harm : insn.arm = some exec)
    {m : Machine} (h : FlagsOnly m) : FlagsOnly (exec m) := by
  rw [arm] at harm
  split at harm
  · cases harm
  · obtain ⟨-, ⟨⟩⟩ := Option.ite_none_left_eq_some.mp harm
    exact Guest.flagsOnly_setX h ..

theorem flagsOnly_exec (b : Guest.Branch) (pc : U64) {m : Machine} (h : FlagsOnly m) :
    FlagsOnly (b.exec pc m).1 := by
  cases b with
  | immediate link offset => cases link <;> exact h
  | register link k => cases link <;> exact h
  | _ => exact h

/-- **An instruction is translated to what the architecture says**: what it leaves, and where it
leads.  Loads and stores that are allocated may be rejected. -/
theorem GuestInsn.follows (insn : GuestInsn) (hdecoded : insn.Decoded) (hflags : FlagsOnly f.machine)
    (hok : ∀ i, insn = .loadStore i → ∃ e, (insn.translate em).result n = .ok e)
    {r : Machine × Control} (harm : insn.arm em.currentPc f.machine = some r) :
    NodeFollows H em (insn.translate em) n f r := by
  cases insn with
  | addSub insn =>
    obtain ⟨exec, hexec, rfl⟩ := Option.map_eq_some_iff.mp harm
    obtain ⟨⟨raw, sub, setFlags⟩, hfields, hexec⟩ := Option.bind_eq_some_iff.mp hexec
    obtain ⟨hok, ⟨⟩⟩ := Option.ite_none_right_eq_some.mp hexec
    refine NodeEnds.follows (nodeEnds_of_step ?_) (insn.flagsOnly_arm hflags)
    rw [← AddSubInsn.withFirst_first hfields hok.2]
    exact AddSubInsn.wp_translate em hfields hok.1
  | bitfield insn =>
    obtain ⟨exec, hexec, rfl⟩ := Option.map_eq_some_iff.mp harm
    obtain ⟨hok, ⟨⟩⟩ := Option.ite_none_right_eq_some.mp hexec
    exact NodeEnds.follows (nodeEnds_of_step (IrEmitter.wp_of_strict (insn.wp_translate hok em n f)))
      (flagsOnly_writeX hflags _ _)
  | data insn =>
    obtain ⟨exec, hexec, rfl⟩ := Option.map_eq_some_iff.mp harm
    exact NodeEnds.follows (nodeEnds_of_translates (insn.translates hdecoded hflags) hexec)
      (DataInsn.flagsOnly_arm hexec hflags)
  | loadStore insn =>
    have harm : (insn.arm em.currentPc).map (fun exec => (exec f.machine, Control.goto (em.currentPc + 4))) =
      some r := harm
    obtain ⟨exec, hexec, rfl⟩ := Option.map_eq_some_iff.mp harm
    refine NodeEnds.follows ?_ ?_
    · have hallocated : ¬ insn.Unallocated := fun h => by
        rw [LoadStoreInsn.arm_of_unallocated hdecoded h] at hexec
        cases hexec
      obtain ⟨e, he⟩ := hok insn rfl
      obtain ⟨exec', hexec', hends⟩ := LoadStoreInsn.followsArm hdecoded hallocated (result_of_plain he)
      rw [hexec] at hexec'
      cases hexec'
      exact nodeEnds_of_step hends
    · rw [FlagsOnly, LoadStoreInsn.nzcv_arm hexec]
      exact hflags
  | movewide insn =>
    obtain ⟨exec, hexec, rfl⟩ := Option.map_eq_some_iff.mp harm
    exact NodeEnds.follows (nodeEnds_of_translates (insn.translates em n f) hexec)
      (insn.flagsOnly_arm hexec hflags)
  | pcreladdr insn =>
    have harm : (insn.arm em.currentPc).map (fun exec => (exec f.machine, Control.goto (em.currentPc + 4))) =
      some r := harm
    obtain ⟨exec, hexec, rfl⟩ := Option.map_eq_some_iff.mp harm
    refine NodeEnds.follows (nodeEnds_of_translates (insn.translates em n f) hexec) ?_
    cases hexec
    rw [Guest.address]
    split <;> exact flagsOnly_writeX hflags _ _
  | dp1src insn =>
    obtain ⟨exec, hexec, rfl⟩ := Option.map_eq_some_iff.mp harm
    exact NodeEnds.follows (insn.nodeEnds hexec) (insn.flagsOnly_arm hexec hflags)
  | icSystem insn =>
    obtain ⟨exec, hexec, rfl⟩ := Option.map_eq_some_iff.mp harm
    exact NodeEnds.follows (insn.nodeEnds hexec) (insn.flagsOnly_arm hexec hflags)
  | branch insn =>
    obtain ⟨b, hb, rfl⟩ := Option.map_eq_some_iff.mp harm
    rw [NodeFollows, translate, Prog.wp_bind]
    refine Prog.wp_mono (insn.nodeBranches hb hflags) ?_
    rintro t _ f' h
    refine ⟨h.symm, ?_⟩
    rw [show f'.machine = (b.exec em.currentPc f.machine).1 from congrArg Prod.fst h]
    exact flagsOnly_exec b _ hflags

end does

/-! ## The front end -/

section operands

variable {as : List Armlet} {a : Armlet}

theorem scoped_singleton (h : ∀ k : Fin 4, a.args.get k < n) : Block.Scoped n [a] := by
  intro i a' ha k
  cases i with
  | zero =>
    cases ha
    exact h k
  | succ i => cases ha

theorem scoped_of_zero (h : ∀ a ∈ as, ∀ k : Fin 4, a.args.get k = 0) : Block.Scoped 1 as := by
  intro i a ha k
  rw [h a (List.mem_of_getElem? ha) k]
  exact Nat.lt_of_lt_of_le Nat.one_pos (Nat.le_add_right 1 i)

theorem Armlet.get_mapArgs (f : ValueRef → ValueRef) (a : Armlet) (k : Fin 4) :
    (a.mapArgs f).args.get k = f (a.args.get k) := by
  match k with
  | 0 | 1 | 2 | 3 => rfl

/-- Where they stand in the end, too. -/
theorem scoped_placed {e : Emission} (h : Block.Scoped 1 e.nodes) {base : Nat} (hbase : 0 < base) (pc : U64) :
    Block.Scoped base (e.placed base pc) := by
  intro i a ha k
  rw [Emission.placed, List.getElem?_map] at ha
  obtain ⟨a₀, ha₀, rfl⟩ := Option.map_eq_some_iff.mp ha
  have hlt : (a₀.args.get k : Nat) < 1 + i := h i a₀ ha₀ k
  have hvalue : ∀ v : Nat, v < 1 + i → Emission.valueAt base v < base + i := by
    intro v hv
    rw [Emission.valueAt]
    split
    · show 0 < base + i
      omega
    · next hne =>
      have hne : v ≠ 0 := hne
      show base + v - 1 < base + i
      omega
  show (a₀.mapArgs (Emission.valueAt base)).args.get k < base + i
  rw [Armlet.get_mapArgs]
  exact hvalue _ hlt

namespace Plan

theorem args_withImm (op : Op) (ty : Ty) (imm : U64) (k : Fin 4) :
    ((Armlet.new op ty).withImm imm).args.get k = 0 := by
  match k with
  | 0 | 1 | 2 | 3 => rfl

theorem args_readNode (src : Src) (k : Fin 4) : (readNode src).args.get k = 0 := by
  cases src with
  | v r => exact args_withImm ..
  | x r =>
    rw [readNode]
    split <;> exact args_withImm ..
  | w r =>
    rw [readNode]
    split <;> exact args_withImm ..

theorem args_readNodes (plan : Plan) : ∀ a ∈ plan.readNodes, ∀ k : Fin 4, a.args.get k = 0 := by
  refine List.foldlRecOn (motive := fun nodes : List Armlet => ∀ a ∈ nodes, ∀ k : Fin 4, a.args.get k = 0)
    plan.srcs.toList.zipIdx _ (fun a ha => absurd ha List.not_mem_nil) ?_
  rintro nodes h ⟨_ | src, i⟩ -
  · exact h
  · intro a ha k
    rcases List.mem_append.mp ha with ha | ha
    · rcases List.mem_append.mp ha with ha | ha
      · exact h a ha k
      · rw [List.eq_of_mem_replicate ha]
        exact args_withImm ..
    · rw [List.mem_singleton.mp ha]
      exact args_readNode src k

/-- The arguments of a helper call come first. -/
theorem scoped_emission (plan : Plan) (inst : U32) : Block.Scoped 1 (plan.emission inst).nodes := by
  have hcall : Block.Scoped (1 + plan.readNodes.length) [((Armlet.new .callHelper (resultTy plan.dst)).withArgs
      (List.range' 1 plan.readNodes.length)).withImm
        (inst.setWidth 64 <<< 32 ||| interpHelper.setWidth 64)] := by
    refine scoped_singleton (slots_get_lt (by omega) fun v hv => ?_)
    exact (List.mem_range'_1.mp hv).2
  have hwrite : Block.Scoped (1 + (plan.readNodes.length + 1))
      (writeNodes plan.dst (plan.readNodes.length + 1)) := by
    have hlt : ∀ v ∈ [plan.readNodes.length + 1], v < 1 + (plan.readNodes.length + 1) := one_lt (by omega)
    cases plan.dst with
    | v r => exact scoped_singleton (slots_get_lt (by omega) hlt)
    | x r =>
      rw [writeNodes]
      split
      · exact Block.scoped_nil _
      · exact scoped_singleton (slots_get_lt (by omega) hlt)
    | w r =>
      rw [writeNodes]
      split
      · exact Block.scoped_nil _
      · exact scoped_singleton (slots_get_lt (by omega) hlt)
  refine ((scoped_of_zero plan.args_readNodes).append hcall).append ?_
  rwa [List.length_append]

end Plan

end operands

/-- A front end: what a `Lowering` leaves open is settled for the instructions of the classes
above.  The other translators push nodes with arguments that come first. -/
structure FrontEnd where
  lowering : Lowering
  insn : U32 → Option GuestInsn
  decoded : ∀ inst i, insn inst = some i → i.Decoded ∧ lowering.decodes inst = true
  lower_eq : ∀ pc inst i, insn inst = some i → lowering.lower pc inst = i.emission pc
  /-- The helpers do no loads and stores. -/
  plan_eq : ∀ inst i, insn inst = some (.loadStore i) → lowering.plan inst = none
  argsFirst : ∀ pc inst, Block.Scoped 1 (lowering.lower pc inst).nodes

namespace FrontEnd

/-- What the architecture says; the other instructions are left open. -/
def guest (F : FrontEnd) : Guest.Step := fun pc inst m => (F.insn inst).bind (GuestInsn.arm pc m)

variable (F : FrontEnd) {H : BitHost} {pc : U64} {inst : U32}

theorem scoped_emission (pc : U64) (inst : U32) : Block.Scoped 1 (F.lowering.emission pc inst).nodes := by
  rw [Lowering.emission]
  split
  · exact Block.scoped_nil 1
  · dsimp only
    split
    · split
      · exact Plan.scoped_emission _ _
      · exact F.argsFirst pc inst
    · exact F.argsFirst pc inst

/-- An instruction that is accepted is left as it is. -/
theorem emission_eq (pc : U64) {i : GuestInsn} (hi : F.insn inst = some i)
    (hok : ∀ e, (i.emission pc).outcome ≠ .error e) : F.lowering.emission pc inst = i.emission pc := by
  rw [Lowering.emission, if_neg (by rw [(F.decoded inst i hi).2]; decide), F.lower_eq pc inst i hi]
  dsimp only
  split
  · next heq => exact absurd heq (hok _)
  · rfl

/-- A load or a store that is rejected stays rejected. -/
theorem accepted {i : LoadStoreInsn} (hi : F.insn inst = some (.loadStore i)) {base : Nat} (hbase : 0 < base)
    {st : InstStatus} (hst : (F.lowering.emission pc inst).outcome.result = .ok st) :
    ∃ e, ((GuestInsn.loadStore i).translate ⟨pc⟩).result base = .ok e := by
  rcases (GuestInsn.loadStore i).result_translate pc hbase with
    ⟨err, hout, -⟩ | ⟨-, hend⟩ | ⟨t, -, hend⟩
  · rw [Lowering.emission, if_neg (by rw [(F.decoded inst _ hi).2]; decide), F.lower_eq pc inst _ hi,
      F.plan_eq inst i hi] at hst
    dsimp only at hst
    split at hst
    · cases hst
    · rw [hout] at hst
      cases hst
  · exact ⟨_, hend⟩
  · exact ⟨_, hend⟩

/-- **The front end follows the guest.** -/
theorem follows (F : FrontEnd) (H : BitHost) :
    F.lowering.translator.Follows (Armlet.nodeStep H) F.guest FlagsOnly where
  appends {b l} hl hpos pc inst := by
    have heq : F.lowering.translator.translateInstruction b pc inst = _ :=
      F.lowering.translateInstruction_eq hl hpos pc inst
    refine ⟨(F.lowering.emission pc inst).placed b.code.size pc, ?_,
      scoped_placed (F.scoped_emission pc inst) hpos pc, ?_⟩
    · rw [heq]
      exact Emission.apply_nodes ..
    · intro st hst f hf r hr
      obtain ⟨i, hi, harm⟩ := Option.bind_eq_some_iff.mp hr
      have hok : ∀ l, i = .loadStore l → ∃ e, (i.translate ⟨pc⟩).result b.code.size = .ok e := by
        rintro l rfl
        rw [heq] at hst
        exact F.accepted hi hpos hst
      have hnodes : NodeFollows H ⟨pc⟩ (i.translate ⟨pc⟩) b.code.size f r :=
        i.follows (F.decoded inst i hi).1 hf hok harm
      obtain ⟨e, f', hres, hexec, rfl, hf'⟩ := (Prog.wp_iff _).mp hnodes
      rw [← i.placed_emission pc hpos] at hexec
      rcases i.result_translate pc hpos with ⟨err, -, hend⟩ | ⟨hout, hend⟩ | ⟨t, hout, hend⟩
      · rw [hres] at hend
        cases hend
      · have hem := F.emission_eq pc hi (by rw [hout]; rintro _ ⟨⟩)
        rw [hem] at heq
        rw [heq, hout] at hst
        rw [hem, heq]
        rw [hres] at hend
        cases hend
        cases hst
        exact ⟨f', hexec, rfl, hf'⟩
      · have hem := F.emission_eq pc hi (by rw [hout]; rintro _ ⟨⟩)
        rw [hem] at heq
        rw [heq, hout] at hst
        rw [hem, heq]
        rw [hres] at hend
        cases hend
        cases hst
        refine ⟨f', hexec, ?_, hf'⟩
        rw [Emission.apply, hout]
        rfl

/-- The block that is translated, from code that does not change meanwhile, does in any frame what
the guest does in as many instructions as the block counts, and leads where the guest goes.  No
value is used before it is there. -/
theorem translateBlock_follows (F : FrontEnd) (H : BitHost) {σ : Type} {fetch : U64 → σ → Option U32 × σ}
    {code : U64 → Option U32} (hfetch : ∀ pc s, (fetch pc s).1 = code pc) {opts : TranslateOptions}
    {block : Block}
    {startPc : U64} {memory : σ} {t : Translation σ}
    (h : translateBlockInto F.lowering.translator block startPc fetch memory opts = (t, .ok ())) :
    (∃ l, t.block.Linked l ∧ t.block.Ssa l) ∧ ∀ f : Frame, FlagsOnly f.machine → ∀ r,
      Guest.run F.guest code t.block.cycles.toNat startPc f.machine = some r →
        ∃ f', t.block.run (Armlet.nodeStep H) f = some f' ∧ FlagsOnly f'.machine ∧
          r = (f'.machine, t.block.terminal.control f'.exitEnv t.block.endPc) := by
  refine ⟨translateBlockInto_ssa (F.follows H) hfetch h, fun f hf r hr => ?_⟩
  obtain ⟨f', hrun, hr', hf'⟩ :=
    translateBlockInto_follows (F.follows H) Armlet.ignoresLinks_nodeStep hfetch h hf hr
  exact ⟨f', hrun, hf', hr'⟩

/-! ## From block to block -/

section dispatch

variable (F : FrontEnd) (H : BitHost) (code : U64 → Option U32)

/-- Code that does not change. -/
def fetch (pc : U64) (s : Unit) : Option U32 × Unit := (code pc, s)

/-- Translate the block at an address and run it: the instructions it counts, what it leaves and
where it leads.  There is nothing where the code is rejected. -/
def runBlock (opts : TranslateOptions) (pc : U64) (m : Machine) : Option (Nat × Machine × Control) :=
  match translateBlockInto F.lowering.translator (Block.new 0) pc (fetch code) () opts with
  | (t, .ok ()) => (t.block.run (Armlet.nodeStep H) ⟨m, fun _ => ⟨.void, 0⟩⟩).map fun f =>
      (t.block.cycles.toNat, f.machine, t.block.terminal.control f.exitEnv t.block.endPc)
  | (_, .error _) => none

/-- Some blocks, each one translated where the one before it leads, with its own options.  None
follows an exception. -/
def dispatch : List TranslateOptions → Machine × Control → Option (Nat × Machine × Control)
  | opts :: rest, (m, .goto pc) => (runBlock F H code opts pc m).bind fun p =>
      (dispatch rest p.2).map fun q => (p.1 + q.1, q.2)
  | _, r => some (0, r)

variable {F H code} {opts : TranslateOptions} {pc : U64} {m : Machine} {n : Nat} {r r' : Machine × Control}

theorem runBlock_follows (h : runBlock F H code opts pc m = some (n, r)) (hm : FlagsOnly m)
    (hr : Guest.run F.guest code n pc m = some r') : r = r' ∧ FlagsOnly r.1 := by
  unfold runBlock at h
  split at h
  · next t htranslated =>
    obtain ⟨f, hrun, hf⟩ := Option.map_eq_some_iff.mp h
    cases hf
    have hfetch : ∀ pc s, (fetch code pc s).1 = code pc := fun _ _ => rfl
    obtain ⟨f', hrun', hr', hf'⟩ := translateBlockInto_follows (F.follows H) Armlet.ignoresLinks_nodeStep hfetch
      htranslated (f := ⟨m, fun _ => ⟨.void, 0⟩⟩) hm hr
    rw [hrun] at hrun'
    cases hrun'
    exact ⟨hr'.symm, hf'⟩
  · cases h

/-- **From block to block the guest is followed.**  Where blocks lead one after the other, and what
they leave, is what the guest does in as many instructions as the blocks count together. -/
theorem dispatch_follows (blocks : List TranslateOptions) (r₀ : Machine × Control)
    (h : dispatch F H code blocks r₀ = some (n, r)) (hm : FlagsOnly r₀.1)
    (hr : Guest.resume F.guest code n r₀ = some r') : r = r' := by
  induction blocks generalizing r₀ n with
  | nil =>
    cases h
    exact Option.some.inj hr
  | cons opts rest ih =>
    rcases r₀ with ⟨m, ⟨pc⟩ | ⟨kind, imm, pc⟩⟩
    · obtain ⟨⟨n₁, r₁⟩, hblock, hmap⟩ := Option.bind_eq_some_iff.mp h
      obtain ⟨⟨n₂, r₂⟩, hrest, hsum⟩ := Option.map_eq_some_iff.mp hmap
      cases hsum
      obtain ⟨r₃, hfirst, hsecond⟩ := Guest.run_of_run_add hr
      obtain ⟨rfl, hflags⟩ := runBlock_follows hblock hm hfirst
      exact ih _ hrest hflags hsecond
    · cases h
      exact Option.some.inj hr

end dispatch

/-- A front end for these classes alone. -/
def ofDecoder (insn : U32 → Option GuestInsn) (h : ∀ inst i, insn inst = some i → i.Decoded) : FrontEnd where
  lowering :=
    { decodes := fun inst => (insn inst).isSome
      lower := fun pc inst => ((insn inst).map fun i => i.emission pc).getD ⟨[], .continues⟩
      plan := fun _ => none }
  insn := insn
  decoded inst i hi := ⟨h inst i hi, Option.isSome_iff_exists.mpr ⟨i, hi⟩⟩
  lower_eq pc inst i hi := by
    dsimp only
    rw [hi]
    rfl
  plan_eq _ _ _ := rfl
  argsFirst pc inst := by
    dsimp only
    cases hi : insn inst with
    | none => exact Block.scoped_nil 1
    | some i => exact i.scoped_emission pc

/-- `movz x0, #1` and `b`. -/
def moveAndBranch : FrontEnd := ofDecoder
  (fun inst => if inst = 0xD2800020 then some (.movewide (.movzRdHalf inst))
    else if inst = 0x17FFFFFF then some (.branch (.branchImm (.bAddrPcrel26 inst))) else none)
  (fun inst i hi => by
    split at hi
    · cases hi
      trivial
    · split at hi <;> cases hi
      trivial)

/-- The loop `movz x0, #1; b .-4`. -/
def loopCode (pc : U64) : Option U32 :=
  if pc = 0x1000 then some 0xD2800020 else if pc = 0x1004 then some 0x17FFFFFF else none

def loopTranslation : Translation Unit × Except Error Unit :=
  translateBlockInto moveAndBranch.lowering.translator (Block.new 0) 0x1000 (fetch loopCode) () default

theorem translateBlock_follows_loop : loopTranslation.1.block.cycles = 2 ∧
    ∃ f', loopTranslation.1.block.run (Armlet.nodeStep Armlet.plainHost) Armlet.lessFrame = some f' ∧
      f'.machine = Armlet.lessFrame.machine.writeX 0 1 := by
  refine ⟨rfl, ?_⟩
  have hok : loopTranslation = (loopTranslation.1, .ok ()) := Prod.ext rfl rfl
  have hfetch : ∀ pc s, (fetch loopCode pc s).1 = loopCode pc := fun _ _ => rfl
  obtain ⟨-, hfollows⟩ := translateBlock_follows moveAndBranch Armlet.plainHost hfetch hok
  obtain ⟨f', hrun, -, hr⟩ := hfollows Armlet.lessFrame (show (0 : Nat) < 16 by decide)
    (Armlet.lessFrame.machine.writeX 0 1, .goto 0x1000) rfl
  exact ⟨f', hrun, (congrArg Prod.fst hr).symm⟩

/-- The loop once around, and its first instruction again. -/
theorem dispatch_follows_loop : ∃ r, dispatch moveAndBranch Armlet.plainHost loopCode [default, ⟨1, false⟩]
    (Armlet.lessFrame.machine, .goto 0x1000) = some (3, r) ∧
      r = ((Armlet.lessFrame.machine.writeX 0 1).writeX 0 1, .goto 0x1004) := by
  refine ⟨_, rfl, ?_⟩
  exact @dispatch_follows moveAndBranch Armlet.plainHost loopCode 3 _ _ [default, ⟨1, false⟩]
    (Armlet.lessFrame.machine, .goto 0x1000) rfl (show (0 : Nat) < 16 by decide) rfl

end FrontEnd

end Rustarmic
