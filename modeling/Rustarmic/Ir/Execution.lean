import Rustarmic.Ir.Append
import Rustarmic.Ir.Ssa
import Rustarmic.Lib.Emitting

/-!
# Running a block

The live nodes of a block run in the order of the list.  What a node does is a parameter; it may
change the whole state, but it does not look at the links.

* `Block.run` — the run of a block.
* `run_pushAll` — pushed nodes run after the block.
* `run_invariant` — what every node keeps, a block keeps.

The step is a parameter since blocks are run on several machines.  In one of them nodes compute
values of the guest; in another one they are the machine code of the backend at the places that the
register allocator has chosen; in a third one they may call the embedder, and a fault is a part of
the state.  What a *list* of nodes does, given what each of them does, is the same for all.  A run
has no value when a node has none, which is how a step says that it knows nothing of such a node.

A step gets the node without its links (`IgnoresLinks`).  Linking a new node behind changes the old
tail, so that a step that looked at links could see a push that comes later, and a run of the first
half of a block would not be the first half of the run.
-/

set_option autoImplicit false

namespace Rustarmic

open Emitting

/-- What a node at an index does to a state. -/
abbrev NodeStep (S : Type) := ValueRef → Armlet → S → Option S

/-- The links are for the block only. -/
def IgnoresLinks {S : Type} (step : NodeStep S) : Prop := ∀ v (a : Armlet) s, step v a.bare s = step v a s

namespace Block

variable {S : Type} (step : NodeStep S)

/-- Run nodes one after another. -/
def runNodes (b : Block) : List ValueRef → S → Option S
  | [], s => some s
  | v :: l, s => (step v (b.get v) s).bind (runNodes b l)

/-- Run the live nodes. -/
def run (b : Block) (s : S) : Option S := b.runNodes step b.iterLive s

variable {step} {b b' : Block} {l l' : List ValueRef} {s : S}

theorem runNodes_append : b.runNodes step (l ++ l') s = (b.runNodes step l s).bind (b.runNodes step l') := by
  induction l generalizing s with
  | nil => rfl
  | cons v l ih =>
    rw [List.cons_append, runNodes, runNodes, Option.bind_assoc]
    exact congrArg _ (funext fun s => ih)

theorem runNodes_congr (hlinks : IgnoresLinks step) (h : ∀ v ∈ l, (b.get v).bare = (b'.get v).bare) :
    b.runNodes step l s = b'.runNodes step l s := by
  induction l generalizing s with
  | nil => rfl
  | cons v l ih =>
    rw [runNodes, runNodes, ← hlinks v (b.get v), h v List.mem_cons_self, hlinks]
    exact congrArg _ (funext fun s => ih fun w hw => h w (List.mem_cons_of_mem v hw))

theorem Linked.run_eq (h : b.Linked l) : b.run step s = b.runNodes step l s := by
  rw [run, h.walk.iterLive_eq]

/-- Only the nodes and their list matter. -/
theorem run_of_nodes (h : b.nodes = b'.nodes) : b.run step s = b'.run step s := by
  simp only [nodes, Prod.mk.injEq] at h
  obtain ⟨hcode, hhead, -⟩ := h
  have hget : b.get = b'.get := by
    funext v
    rw [get, get, hcode]
  have hwalk (n : Nat) (v : ValueRef) : b.walkFrom n v = b'.walkFrom n v := by
    induction n generalizing v with
    | zero => rfl
    | succ n ih => rw [walkFrom, walkFrom, ih, hget]
  have hnodes (l : List ValueRef) (s : S) : b.runNodes step l s = b'.runNodes step l s := by
    induction l generalizing s with
    | nil => rfl
    | cons v l ih =>
      rw [runNodes, runNodes, hget]
      exact congrArg _ (funext fun s => ih s)
  rw [run, run, iterLive, iterLive, hcode, hhead, hwalk, hnodes]

theorem run_new (pc : U64) : (new pc).run step s = some s := rfl

/-- A pushed node runs last. -/
theorem Linked.run_push (h : b.Linked l) (hpos : 0 < b.code.size) (hlinks : IgnoresLinks step) (a : Armlet) :
    (b.push a).1.run step s = (b.run step s).bind (step b.code.size a) := by
  have hold : ∀ v ∈ l, ((b.push a).1.get v).bare = (b.get v).bare := by
    intro v hv
    rw [get_push (h.tail_lt hpos), if_neg (h.bound v hv).ne]
    split <;> rfl
  have hnew : ((b.push a).1.get b.code.size).bare = a.bare := by
    rw [get_push (h.tail_lt hpos), if_pos rfl]
    rfl
  rw [(h.push hpos a).run_eq, h.run_eq, runNodes_append, runNodes_congr hlinks hold]
  refine congrArg _ (funext fun s => ?_)
  rw [runNodes, ← hlinks, hnew, hlinks]
  exact Option.bind_fun_some _

/-- **Pushed nodes run after the block**, from the next index on. -/
theorem Linked.run_pushAll (h : b.Linked l) (hpos : 0 < b.code.size) (hlinks : IgnoresLinks step)
    (as : List Armlet) :
    (b.pushAll as).run step s = (b.run step s).bind (Prog.exec step b.code.size as) := by
  induction as generalizing b l with
  | nil => exact (Option.bind_fun_some _).symm
  | cons a as ih =>
    have h' := ih (h.push hpos a) (by simp)
    rw [h.run_push hpos hlinks, size_push, Option.bind_assoc] at h'
    exact h'

/-- Nodes from an index on take their arguments from before them. -/
def Scoped (n : Nat) (as : List Armlet) : Prop := ∀ i a, as[i]? = some a → ∀ k : Fin 4, a.args.get k < n + i

theorem scoped_nil (n : Nat) : Scoped n [] := by
  intro i a ha
  cases ha

theorem Scoped.append {n : Nat} {as as' : List Armlet} (h : Scoped n as) (h' : Scoped (n + as.length) as') :
    Scoped n (as ++ as') := by
  intro i a ha k
  by_cases hi : i < as.length
  · rw [List.getElem?_append_left hi] at ha
    exact h i a ha k
  · have hle := Nat.le_of_not_lt hi
    rw [List.getElem?_append_right hle] at ha
    refine Nat.lt_of_lt_of_eq (h' _ a ha k) ?_
    rw [Nat.add_assoc, Nat.add_sub_cancel' hle]

theorem args_pushAll_new {pc : U64} {as : List Armlet} {i : Nat} {a : Armlet} (h : as[i]? = some a) :
    (((new pc).pushAll as).get (1 + i)).args = a.args := by
  induction as using List.reverseRecOn generalizing i a with
  | nil => cases h
  | append_singleton as last ih =>
    have hl := (Linked.new pc).pushAll Nat.one_pos as
    have hsize : ((new pc).pushAll as).code.size = 1 + as.length := size_pushAll ..
    have hpos : 0 < ((new pc).pushAll as).code.size := by omega
    rw [pushAll_append]
    show ((((new pc).pushAll as).push last).1.get (1 + i)).args = a.args
    rw [get_push (hl.tail_lt hpos), hsize]
    by_cases hi : i = as.length
    · subst hi
      rw [List.getElem?_concat_length] at h
      obtain rfl := Option.some.inj h
      rw [if_pos rfl]
    · have hlt : i < as.length := by
        have := (List.getElem?_eq_some_iff.mp h).1
        rw [List.length_append, List.length_singleton] at this
        omega
      rw [List.getElem?_append_left hlt] at h
      rw [if_neg (Nat.add_lt_add_left hlt 1).ne]
      split <;> exact ih h

/-- **Nodes that are pushed in scope are in order.** -/
theorem ssa_pushAll_new {as : List Armlet} (h : Scoped 1 as) (pc : U64) :
    ((new pc).pushAll as).Ssa (List.range' 1 as.length) := by
  intro l₁ v l₂ heq x hx hs
  obtain ⟨j, hj, rfl, hrest⟩ := List.range'_eq_append_iff.mp heq
  obtain ⟨rfl, hpos, -⟩ := List.range'_eq_cons_iff.mp hrest.symm
  obtain ⟨a, ha⟩ : ∃ a, as[j]? = some a := ⟨_, List.getElem?_eq_getElem (by omega)⟩
  obtain ⟨k, hk, rfl⟩ := Vector.getElem_of_mem (Vector.mem_toList_iff.mp hx)
  rw [Nat.mul_one] at hs ⊢
  have hne : (((new pc).pushAll as).get (1 + j)).args[k] ≠ 0 := by simpa using hs
  have hlt : (((new pc).pushAll as).get (1 + j)).args[k] < 1 + j := by
    simp only [args_pushAll_new ha]
    exact h j a ha ⟨k, hk⟩
  exact List.mem_range'_1.mpr ⟨Nat.pos_of_ne_zero hne, hlt⟩

/-- What every node keeps, the nodes keep; those that ran are `done`. -/
theorem runNodes_invariant {P : List ValueRef → S → Prop} {all done : List ValueRef} (hall : all = done ++ l)
    (hstep : ∀ l₁ v l₂ s s', all = l₁ ++ v :: l₂ → P l₁ s → step v (b.get v) s = some s' → P (l₁ ++ [v]) s')
    {s' : S} (h : P done s) (hrun : b.runNodes step l s = some s') : P all s' := by
  induction l generalizing done s with
  | nil =>
    obtain rfl := Option.some.inj hrun
    rwa [hall, List.append_nil]
  | cons v l ih =>
    obtain ⟨t, hv, hrest⟩ := Option.bind_eq_some_iff.mp hrun
    have hone := hstep done v l s t hall h hv
    exact ih (by rw [hall, List.append_assoc, List.singleton_append]) hone hrest

/-- The invariant of a run. -/
theorem Linked.run_invariant (h : b.Linked l) {P : List ValueRef → S → Prop}
    (hstep : ∀ l₁ v l₂ s s', l = l₁ ++ v :: l₂ → P l₁ s → step v (b.get v) s = some s' → P (l₁ ++ [v]) s')
    {s' : S} (hstart : P [] s) (hrun : b.run step s = some s') : P l s' := by
  rw [h.run_eq] at hrun
  exact runNodes_invariant (List.nil_append l).symm hstep hstart hrun

end Block

end Rustarmic
