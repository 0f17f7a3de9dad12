import Rustarmic.Backend.MemAccess
import Rustarmic.Ir.EvalInteger
import Rustarmic.Jit.HostAtomic

/-!
# What the atomic nodes do

A read-modify-write and a compare-and-swap are run as their code, with whatever the callback or
another thread does, so that a node may have to wait for the other threads.

* `CodeState` — the values and registers of a block, and the context its code works on.
* `Armlet.atomicAccess` — the access of a node.
* `Surroundings.step` — what a node does; `step_plain` and `step_access` are its two kinds of node.
* `MemAccess.atomic_effect` — the access happens at once.

This is where the frontend's account of a block meets the backend's account of an access.  A block
is a list of nodes, and most of them change values and registers only; an atomic node has an access
(`Backend.MemAccess`), with operands taken from its arguments, and its value is made of what the
access has loaded.

Other threads are a list of memories, those the code finds at each of its passes.  A
compare-and-exchange loop that finds another memory each time goes on, and if the list ends it has
not finished: `step` has no result then, which is neither a fault nor an error.  With nobody else at
the memory there is always one (`run_alone`).
-/

set_option autoImplicit false

namespace Rustarmic

open ModularMemory

/-- The frame of a block and the context its code runs with. -/
structure CodeState (κ ω : Type) where
  frame : Frame
  ctx : GuestContext κ ω

/-- What the code of an access depends on besides its operands: the callbacks, the mode and what the
embedder keeps outside the host memory; what other threads make of that memory; and what is left in
`r11`. -/
structure Surroundings (ω : Type) where
  cb : Callbacks ω
  mode : FastmemMode
  ext : ω → Mem 64
  others : List Host
  r11 : U64

namespace Armlet

variable (a : Armlet) (f : Frame)

/-- The operand registers of `emit_atomic_rmw`, `emit_atomic_cas` and `emit_atomic_cas128`. -/
def atomicAccess (r11 : U64) : Option MemAccess :=
  let x (k : Fin 4) := (a.arg f k).bits
  let rmw (w : AtomicWidth) :=
    ((AtomicOp.fromU8 (a.imm.setWidth 8)).filter (· ≠ .cas)).map fun op =>
      MemAccess.atomic op w (operand w.val (x 1)) r11
  let cas (w : AtomicWidth) := some (MemAccess.atomic .cas w (operand w.val (x 2)) (operand w.val (x 1)))
  match a.op with
  | .atomicRmw8 => rmw ⟨.b1, Width.b1_ne_b16⟩
  | .atomicRmw16 => rmw ⟨.b2, Width.b2_ne_b16⟩
  | .atomicRmw32 => rmw ⟨.b4, Width.b4_ne_b16⟩
  | .atomicRmw64 => rmw ⟨.b8, Width.b8_ne_b16⟩
  | .atomicCas8 => cas ⟨.b1, Width.b1_ne_b16⟩
  | .atomicCas16 => cas ⟨.b2, Width.b2_ne_b16⟩
  | .atomicCas32 => cas ⟨.b4, Width.b4_ne_b16⟩
  | .atomicCas64 => cas ⟨.b8, Width.b8_ne_b16⟩
  | .atomicCas128 => some (.cas128 (x 1) (x 2))
  | _ => none

/-- The value of the node, from what the access loads. -/
def atomicValue (loaded : U128) : Value :=
  match a.op with
  | .atomicCas128 => ⟨a.ty, loaded⟩
  | .atomicRmw64 | .atomicCas64 => .ofU64 a.ty (loaded.setWidth 64)
  | _ => .ofU32 a.ty (loaded.setWidth 32)

/-- What a node without an access does; a pair of words is put together or taken apart. -/
def plainStep (n : ValueRef) (a : Armlet) (f : Frame) : Option Frame :=
  a.dataStep n f <|>
    match a.op with
    | .vecBuildQ => some (f.define n ⟨a.ty, (a.arg f 1).lo64 ++ (a.arg f 0).lo64⟩)
    | .vecExtractLo64 => some (f.define n (.ofU64 a.ty (a.arg f 0).lo64))
    | .vecExtractHi64 => some (f.define n (.ofU64 a.ty (((a.arg f 0).bits >>> 64).setWidth 64)))
    | _ => none

theorem plainStep_of_data {n : ValueRef} {a : Armlet} {f f' : Frame} (h : a.dataStep n f = some f') :
    a.plainStep n f = some f' := by
  rw [plainStep, h]
  rfl

end Armlet

namespace Surroundings

variable {κ ω : Type} (env : Surroundings ω)

/-- The frame after the access `x`, which left `r`. -/
def after (n : ValueRef) (a : Armlet) (f : Frame) (x : MemAccess) (r : GuestContext κ ω × U128) : Frame :=
  Frame.define
    { f with
      machine :=
        { f.machine with
          memory := guestMemory env.mode env.ext r.1.rest.state
          accesses := ⟨true, (a.arg f 0).lo64, x.width.bytes⟩ :: f.machine.accesses } }
    n (a.atomicValue r.2)

/-- What node `n` does. -/
def step (n : ValueRef) (a : Armlet) (s : CodeState κ ω) : Option (CodeState κ ω) :=
  match a.plainStep n s.frame with
  | some frame => some ⟨frame, s.ctx⟩
  | none =>
    (a.atomicAccess s.frame env.r11).bind fun x =>
      (x.run env.cb env.mode a.pc (a.arg s.frame 0).lo64 env.others s.ctx).map fun r =>
        ⟨env.after n a s.frame x r, r.1⟩

variable {n : ValueRef} {a : Armlet} {f f' : Frame} {ctx : GuestContext κ ω}

theorem step_plain (h : a.plainStep n f = some f') : env.step n a ⟨f, ctx⟩ = some ⟨f', ctx⟩ := by
  rw [step, h]

theorem step_access {x : MemAccess} {r : GuestContext κ ω × U128} (hnone : a.plainStep n f = none)
    (hx : a.atomicAccess f env.r11 = some x)
    (hr : x.run env.cb env.mode a.pc (a.arg f 0).lo64 env.others ctx = some r) :
    env.step n a ⟨f, ctx⟩ = some ⟨env.after n a f x r, r.1⟩ := by
  rw [step, hnone]
  simp only [hx, Option.bind_some, hr, Option.map_some]

end Surroundings

/-! ## What an access leaves -/

namespace MemAccess

variable {κ ω : Type} {cb : Callbacks ω} {mode : FastmemMode} {ext : ω → Mem 64} {others : List Host}

/-- The accesses of the atomic nodes. -/
def isAtomic : MemAccess → Prop
  | load _ _ | store _ _ _ => False
  | atomic _ _ _ _ | cas128 _ _ => True

/-- **An atomic access happens at once**, on the memory as one of the threads left it. -/
theorem atomic_effect (hserves : ServesAtomics mode cb ext) {x : MemAccess} (hx : x.isAtomic)
    {pc addr : U64} {ctx : GuestContext κ ω}
    (hdirect : ∀ bits a, mode = .direct bits → x.touched mode ctx.rest.state addr = some a →
      addr.toNat + x.width.bytes ≤ 2 ^ bits.val)
    {r : GuestContext κ ω × U128} (hr : x.run cb mode pc addr others ctx = some r) :
    ∃ seen ∈ ctx.rest.state.host :: others, (guestMemory mode ext r.1.rest.state, r.2) =
      x.effect addr (guestMemory mode ext { ctx.rest.state with host := seen }) := by
  cases x with
  | load w elem => exact hx.elim
  | store w elem value => exact hx.elim
  | atomic op w arg3 r11 =>
    rw [run, Option.map_eq_some_iff] at hr
    obtain ⟨r', hr', rfl⟩ := hr
    refine atomic_same hserves (fun a ha => ?_) hr'
    exact fits_of_guard (guard_emit (touched_guard ha).1) fun bits hmode => hdirect bits a hmode ha
  | cas128 expected new => exact cas128_same hserves hr

/-- With no other thread at the memory there is nothing to wait for. -/
theorem run_alone (x : MemAccess) (pc addr : U64) (ctx : GuestContext κ ω) :
    (x.run cb mode pc addr [] ctx).isSome := by
  cases x with
  | load w elem => rfl
  | store w elem value => rfl
  | cas128 expected new => rfl
  | atomic op w arg3 r11 =>
    rw [run, Option.isSome_map, emitAtomicCore]
    cases emitFastmemGuard mode pageDirectWrite ctx.rest.state.region w.val addr with
    | none => rfl
    | some a =>
      dsimp only
      cases hout : InlineAtomic.inlineAtomic op w.val mode.isDirect [] ctx.rest.state.host
          ⟨ctx.rest.state.region.memBase, addr, arg3, 0, a, r11⟩ with
      | done rax host => rfl
      | divert regs host => rfl
      | retry regs => exact (InlineAtomic.inlineAtomic_alone _ _ _ _ _ _ hout).elim

end MemAccess

end Rustarmic
