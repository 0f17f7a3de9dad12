import Rustarmic.Ir.Eval

/-!
# Running guest code

What an instruction does is a parameter.  A run makes a number of steps from an address and ends at
another one, or in an exception.

* `Control` — where an instruction leads.
* `Guest.run` — a number of instructions.
* `Guest.run_add` — a run of a run.

This is the machine that the recompiler is compared with.  It knows two things only: what word is at
an address, and what a word does there (`Step`).  Where either is missing the run is `none`, and
then nothing can be said of the code: there is no instruction, or the architecture leaves open what
it does.

The number of instructions counts, because a block is compared with as many instructions as it was
translated from, and a run of blocks with their sum.  An exception ends the run, but not the count:
a run that was to be longer is `none`, since no instruction follows.  So the composition of runs is
stated for results (`resume`), which may be an exception already, and `run_add` has the addresses
only at the start.
-/

set_option autoImplicit false

namespace Rustarmic

/-- Where an instruction or a block leads: on in the program, or out of it. -/
inductive Control where
  | goto (pc : U64)
  | exception (kind : ExceptionKind) (imm : U32) (returnPc : U64)
  deriving DecidableEq, Repr

namespace Guest

/-- What an instruction at an address does to a machine, and where it leads.  What is left open is
`none`. -/
abbrev Step := U64 → U32 → Machine → Option (Machine × Control)

variable (step : Step) (code : U64 → Option U32)

/-- The instruction at an address. -/
def stepAt (pc : U64) (m : Machine) : Option (Machine × Control) := (code pc).bind fun inst => step pc inst m

/-- One more instruction; none follows an exception. -/
def next : Machine × Control → Option (Machine × Control)
  | (m, .goto pc) => stepAt step code pc m
  | (_, .exception ..) => none

/-- Some more instructions. -/
def resume : Nat → Machine × Control → Option (Machine × Control)
  | 0, r => some r
  | n + 1, r => (resume n r).bind (next step code)

/-- Run a number of instructions from an address. -/
def run (n : Nat) (pc : U64) (m : Machine) : Option (Machine × Control) := resume step code n (m, .goto pc)

variable {step : Step} {code : U64 → Option U32} {n k : Nat} {pc : U64} {m : Machine}

theorem run_zero : run step code 0 pc m = some (m, .goto pc) := rfl

theorem run_succ : run step code (n + 1) pc m = (run step code n pc m).bind (next step code) := rfl

theorem resume_add (r : Machine × Control) :
    resume step code (n + k) r = (resume step code n r).bind (resume step code k) := by
  induction k with
  | zero => exact (Option.bind_fun_some _).symm
  | succ k ih =>
    rw [← Nat.add_assoc, resume, ih, Option.bind_assoc]
    rfl

/-- A run goes on from where a shorter one ended. -/
theorem run_add : run step code (n + k) pc m = (run step code n pc m).bind (resume step code k) :=
  resume_add _

/-- A longer run begins with a shorter one. -/
theorem run_of_run_add {r : Machine × Control} (h : run step code (n + k) pc m = some r) :
    ∃ r', run step code n pc m = some r' ∧ resume step code k r' = some r := by
  rw [run_add] at h
  exact Option.bind_eq_some_iff.mp h

end Guest

end Rustarmic
