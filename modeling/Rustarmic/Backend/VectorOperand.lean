import Rustarmic.Backend.Gfni
import Rustarmic.Backend.Regalloc

/-!
# Vector code and its operands

The instructions on vector registers that the lowerings of vector operations use, and how a lowering
gets at its operands: a value is in a vector register or in a slot of the frame.

* `Instr`, `run` — the instructions and what they do.
* `intoXmmQ`, `getXmmQ`, `storeXmmQ`, `workingXmmFor` — the helpers of the lowerings; the first
  three fail on a value that is in neither.
* `placeOf` — where a value is; `exists_intoXmmQ`, `exists_getXmmQ` and `exists_storeXmmQ` say what
  the helpers do with a value that is somewhere.
-/

set_option autoImplicit false

namespace Rustarmic

namespace VectorCode

open Packed

/-- Where 16 bytes can be: in a vector register, in a temporary at `rsp + off`, or in a slot at
`rbp - off`. -/
inductive Place where
  | xmm (r : Nat)
  | stack (off : Nat)
  | frame (off : Nat)
  deriving DecidableEq, Repr

abbrev Contents := Place → U128

/-- Registers by number.  `mov` is `movdqa` between registers and `movdqu` otherwise, `broadcast`
loads both halves by way of `rax`, and the comparisons and the shifts have the width of their
lanes.  `affine` is code of `Gfni.emit`, which sets `rax` before it reads it. -/
inductive Instr where
  | mov (dst src : Place)
  | movq (dst src : Nat)
  | pand (dst src : Nat)
  | por (dst src : Nat)
  | pxor (dst src : Nat)
  | pcmpeq (w dst src : Nat)
  | pcmpgt (w dst src : Nat)
  | psubusb (dst src : Nat)
  | psll (w dst count : Nat)
  | psrl (w dst count : Nat)
  | psra (w dst count : Nat)
  | psrldq (dst bytes : Nat)
  | pshufd (dst src : Nat) (order : U8)
  | pmovsxbw (dst src : Nat)
  | packsswb (dst src : Nat)
  | broadcast (dst : Nat) (value : U64)
  | affine (code : List Gfni.Instr)
  deriving DecidableEq, Repr

namespace Contents

/-- Write one place. -/
def set (m : Contents) (p : Place) (x : U128) : Contents := Function.update m p x

theorem set_apply (m : Contents) (p q : Place) (x : U128) :
    m.set p x q = if q = p then x else m q := Function.update_apply _ _ _ _

@[simp] theorem set_self (m : Contents) (p : Place) (x : U128) : m.set p x p = x :=
  Function.update_self ..

theorem set_of_ne {p q : Place} (h : q ≠ p) (m : Contents) (x : U128) : m.set p x q = m q :=
  Function.update_of_ne h ..

/-- Combine the second register into the first. -/
def combine (m : Contents) (dst src : Nat) (f : U128 → U128 → U128) : Contents :=
  m.set (.xmm dst) (f (m (.xmm dst)) (m (.xmm src)))

end Contents

def Instr.exec (m : Contents) : Instr → Contents
  | mov dst src => m.set dst (m src)
  | movq dst src => m.set (.xmm dst) (Packed.movq (m (.xmm src)))
  | pand dst src => m.combine dst src (· &&& ·)
  | por dst src => m.combine dst src (· ||| ·)
  | pxor dst src => m.combine dst src (· ^^^ ·)
  | pcmpeq w dst src => m.combine dst src (Packed.pcmpeq w)
  | pcmpgt w dst src => m.combine dst src (Packed.pcmpgt w)
  | psubusb dst src => m.combine dst src Packed.psubusb
  | psll w dst count => m.set (.xmm dst) (Packed.psll w (m (.xmm dst)) count)
  | psrl w dst count => m.set (.xmm dst) (Packed.psrl w (m (.xmm dst)) count)
  | psra w dst count => m.set (.xmm dst) (Packed.psra w (m (.xmm dst)) count)
  | psrldq dst bytes => m.set (.xmm dst) (m (.xmm dst) >>> (8 * bytes))
  | pshufd dst src order => m.set (.xmm dst) (Packed.pshufd (m (.xmm src)) order)
  | pmovsxbw dst src => m.set (.xmm dst) (Packed.pmovsxbw (m (.xmm src)))
  | packsswb dst src => m.combine dst src Packed.packsswb
  | broadcast dst value => m.set (.xmm dst) (value ++ value : U128)
  | affine code => fun
    | .xmm r => (Gfni.run code ⟨0, fun r => m (.xmm r)⟩).xmm r
    | p => m p

def run (code : List Instr) (m : Contents) : Contents := code.foldl Instr.exec m

@[simp] theorem run_nil (m : Contents) : run [] m = m := rfl

@[simp] theorem run_cons (i : Instr) (code : List Instr) (m : Contents) :
    run (i :: code) m = run code (i.exec m) := rfl

@[simp] theorem run_append (code code' : List Instr) (m : Contents) :
    run (code ++ code') m = run code' (run code m) := List.foldl_append

section exec

variable (m : Contents) (q : Place) (w dst src count : Nat)

@[simp] theorem exec_mov (d s : Place) :
    (Instr.mov d s).exec m q = if q = d then m s else m q := Contents.set_apply ..

@[simp] theorem exec_movq : (Instr.movq dst src).exec m q =
    if q = .xmm dst then Packed.movq (m (.xmm src)) else m q := Contents.set_apply ..

@[simp] theorem exec_pand : (Instr.pand dst src).exec m q =
    if q = .xmm dst then m (.xmm dst) &&& m (.xmm src) else m q := Contents.set_apply ..

@[simp] theorem exec_por : (Instr.por dst src).exec m q =
    if q = .xmm dst then m (.xmm dst) ||| m (.xmm src) else m q := Contents.set_apply ..

@[simp] theorem exec_pxor : (Instr.pxor dst src).exec m q =
    if q = .xmm dst then m (.xmm dst) ^^^ m (.xmm src) else m q := Contents.set_apply ..

@[simp] theorem exec_pcmpeq : (Instr.pcmpeq w dst src).exec m q =
    if q = .xmm dst then Packed.pcmpeq w (m (.xmm dst)) (m (.xmm src)) else m q :=
  Contents.set_apply ..

@[simp] theorem exec_pcmpgt : (Instr.pcmpgt w dst src).exec m q =
    if q = .xmm dst then Packed.pcmpgt w (m (.xmm dst)) (m (.xmm src)) else m q :=
  Contents.set_apply ..

@[simp] theorem exec_psll : (Instr.psll w dst count).exec m q =
    if q = .xmm dst then Packed.psll w (m (.xmm dst)) count else m q := Contents.set_apply ..

@[simp] theorem exec_psrl : (Instr.psrl w dst count).exec m q =
    if q = .xmm dst then Packed.psrl w (m (.xmm dst)) count else m q := Contents.set_apply ..

@[simp] theorem exec_psra : (Instr.psra w dst count).exec m q =
    if q = .xmm dst then Packed.psra w (m (.xmm dst)) count else m q := Contents.set_apply ..

@[simp] theorem exec_psrldq : (Instr.psrldq dst count).exec m q =
    if q = .xmm dst then m (.xmm dst) >>> (8 * count) else m q := Contents.set_apply ..

@[simp] theorem exec_pshufd (order : U8) : (Instr.pshufd dst src order).exec m q =
    if q = .xmm dst then Packed.pshufd (m (.xmm src)) order else m q := Contents.set_apply ..

@[simp] theorem exec_pmovsxbw : (Instr.pmovsxbw dst src).exec m q =
    if q = .xmm dst then Packed.pmovsxbw (m (.xmm src)) else m q := Contents.set_apply ..

@[simp] theorem exec_packsswb : (Instr.packsswb dst src).exec m q =
    if q = .xmm dst then Packed.packsswb (m (.xmm dst)) (m (.xmm src)) else m q :=
  Contents.set_apply ..

@[simp] theorem exec_broadcast (value : U64) : (Instr.broadcast dst value).exec m q =
    if q = .xmm dst then (value ++ value : U128) else m q := Contents.set_apply ..

end exec

/-- Whether an instruction may write `p`. -/
def Instr.writes (p : Place) : Instr → Bool
  | mov dst _ => p = dst
  | affine _ => match p with
    | .xmm _ => true
    | _ => false
  | movq dst _ | pand dst _ | por dst _ | pxor dst _ | pcmpeq _ dst _ | pcmpgt _ dst _
  | psubusb dst _ | psll _ dst _ | psrl _ dst _ | psra _ dst _ | psrldq dst _ | pshufd dst _ _
  | pmovsxbw dst _ | packsswb dst _ | broadcast dst _ => p = .xmm dst

theorem Instr.exec_of_not_writes {i : Instr} {p : Place} (h : i.writes p = false) (m : Contents) :
    i.exec m p = m p := by
  cases i with
  | affine code => cases p with
    | xmm r => cases h
    | stack off => rfl
    | frame off => rfl
  | _ => exact Contents.set_of_ne (of_decide_eq_false h) _ _

/-- What no instruction writes keeps its contents. -/
theorem run_of_not_writes {code : List Instr} {p : Place} (h : ∀ i ∈ code, i.writes p = false)
    (m : Contents) : run code m p = m p := by
  induction code generalizing m with
  | nil => rfl
  | cons i code ih =>
    rw [run_cons, ih fun j hj => h j (.tail _ hj), Instr.exec_of_not_writes (h i (.head _))]

/-! ## Operands -/

/-- Bring a value into the register `target`. -/
def intoXmmQ (loc : Loc) (target : Nat) : Option (List Instr) :=
  match loc with
  | .xmm x => some (if x ≠ target then [.mov (.xmm target) (.xmm x)] else [])
  | .spill off => some [.mov (.xmm target) (.frame off)]
  | .reg _ | .imm _ | .none => none

/-- A register that has the value: its own, or `fallback`. -/
def getXmmQ (loc : Loc) (fallback : Nat) : Option (List Instr × Nat) :=
  match loc with
  | .xmm x => some ([], x)
  | .spill off => some ([.mov (.xmm fallback) (.frame off)], fallback)
  | .reg _ | .imm _ | .none => none

/-- Put the contents of `src` where the result is to be. -/
def storeXmmQ (loc : Loc) (src : Nat) : Option (List Instr) :=
  match loc with
  | .xmm x => some (if x ≠ src then [.mov (.xmm x) (.xmm src)] else [])
  | .spill off => some [.mov (.frame off) (.xmm src)]
  | .reg _ => none
  | .imm _ | .none => some []

/-- The register in which the result is made. -/
def workingXmmFor (loc : Loc) (scratch : Nat) : Nat :=
  match loc with
  | .xmm x => x
  | _ => scratch

/-- Where a value is. -/
def placeOf : Loc → Option Place
  | .xmm x => some (.xmm x)
  | .spill off => some (.frame off)
  | .reg _ | .imm _ | .none => none

variable {loc : Loc} {p : Place}

theorem placeOf_cases (h : placeOf loc = some p) :
    (∃ x, loc = .xmm x ∧ p = .xmm x) ∨ ∃ off, loc = .spill off ∧ p = .frame off := by
  cases loc with
  | xmm x => exact .inl ⟨x, rfl, (Option.some.inj h).symm⟩
  | spill off => exact .inr ⟨off, rfl, (Option.some.inj h).symm⟩
  | reg r => cases h
  | imm v => cases h
  | none => cases h

theorem exists_intoXmmQ (h : placeOf loc = some p) (target : Nat) :
    ∃ code, intoXmmQ loc target = some code ∧
      ∀ m q, run code m q = if q = .xmm target then m p else m q := by
  rcases placeOf_cases h with ⟨x, rfl, rfl⟩ | ⟨off, rfl, rfl⟩
  · refine ⟨_, rfl, fun m q => ?_⟩
    split
    · exact Contents.set_apply _ _ _ _
    · rename_i heq
      obtain rfl := not_not.mp heq
      rw [run_nil]
      split
      · rename_i hq
        rw [hq]
      · rfl
  · exact ⟨_, rfl, fun m q => Contents.set_apply _ _ _ _⟩

theorem exists_getXmmQ (h : placeOf loc = some p) (fallback : Nat) :
    ∃ code r, getXmmQ loc fallback = some (code, r) ∧ (p = .xmm r ∨ r = fallback) ∧
      ∀ m, run code m (.xmm r) = m p ∧ ∀ q, q ≠ .xmm fallback → run code m q = m q := by
  rcases placeOf_cases h with ⟨x, rfl, rfl⟩ | ⟨off, rfl, rfl⟩
  · exact ⟨[], x, rfl, .inl rfl, fun m => ⟨rfl, fun q _ => rfl⟩⟩
  · exact ⟨_, fallback, rfl, .inr rfl, fun m => ⟨Contents.set_self _ _ _,
      fun q hq => Contents.set_of_ne hq _ _⟩⟩

theorem exists_storeXmmQ (h : placeOf loc = some p) (src : Nat) :
    ∃ code, storeXmmQ loc src = some code ∧
      ∀ m q, run code m q = if q = p then m (.xmm src) else m q := by
  rcases placeOf_cases h with ⟨x, rfl, rfl⟩ | ⟨off, rfl, rfl⟩
  · refine ⟨_, rfl, fun m q => ?_⟩
    split
    · exact Contents.set_apply _ _ _ _
    · rename_i heq
      obtain rfl := not_not.mp heq
      rw [run_nil]
      split
      · rename_i hq
        rw [hq]
      · rfl
  · exact ⟨_, rfl, fun m q => Contents.set_apply _ _ _ _⟩

/-- A value is at `p`, which is not one of the scratch registers. -/
structure VectorAt (loc : Loc) (p : Place) : Prop where
  place : placeOf loc = some p
  pool : ∀ r, p = .xmm r → r ∈ spillXmms

theorem VectorAt.ne_scratch (h : VectorAt loc p) {r : Nat} (hr : r < 6) : p ≠ .xmm r := by
  intro heq
  have hmem := h.pool r heq
  simp only [spillXmms, List.mem_cons, List.not_mem_nil, or_false] at hmem
  omega

/-- The result is made in its own register, or in `xmm0`. -/
theorem VectorAt.working (h : VectorAt loc p) :
    (p = .xmm (workingXmmFor loc 0) ∨ workingXmmFor loc 0 = 0) ∧
      ∀ r, 0 < r → r < 6 → workingXmmFor loc 0 ≠ r := by
  rcases placeOf_cases h.place with ⟨x, rfl, rfl⟩ | ⟨off, rfl, rfl⟩
  · exact ⟨.inl rfl, fun r _ hr heq => h.ne_scratch hr (congrArg Place.xmm heq)⟩
  · refine ⟨.inr rfl, ?_⟩
    rintro r hpos - rfl
    exact absurd hpos (Nat.lt_irrefl 0)

/-- An operand apart from the result is not in the register in which the result is made. -/
theorem VectorAt.ne_working {loc' : Loc} {p' : Place} (h : VectorAt loc p) (h' : VectorAt loc' p')
    (hne : p' ≠ p) : p' ≠ .xmm (workingXmmFor loc 0) := by
  rcases h.working.1 with heq | hzero
  · rwa [← heq]
  · rw [hzero]
    exact h'.ne_scratch (by decide)

end VectorCode

end Rustarmic
