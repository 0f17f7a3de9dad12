import Rustarmic.Backend.Terminals
import Rustarmic.Frontend.Translator

/-!
# Blocks follow the guest

What the translation of one instruction owes the guest is a parameter (`InstTranslator.Follows`).  A
block that `translateBlockInto` returns then does what the guest does in as many instructions as the
block counts, and its terminal leads where the guest goes, whether the loop ended at a terminator,
at the cap, or took its last branch back.

* `Simulates` — nodes do what a number of guest instructions does.
* `Reached`, `Recovers` — what the loop knows in every state.
* `translateBlockInto_follows` — the block.

The guest is a step function and a number of steps, and it may get stuck: where the code is not
known, or where an instruction has no meaning that is modelled, `Guest.run` has no result and
nothing is owed.  So the statement is an implication from a run of the guest to a run of the nodes,
and one simulation step is one instruction.

The loop would be a plain induction if it did not follow branches.  A branch that is followed is not
the end of the block, but it may become the end later: when the code behind it cannot be translated,
the nodes are rolled back to where they were, and the terminal is set to the branch.  Two invariants
are carried for that.  `Reached` is about the nodes there are now.  `Recovers` is about those there
were at the last branch, which are still a prefix of them, and what these do; it is used by the
rollback and by nothing else.
-/

set_option autoImplicit false

namespace Rustarmic

open Emitting

/-- Where an instruction leads: to the next one, or where the terminal leads. -/
def InstStatus.leads (st : InstStatus) (t : Terminal) (pc : U64) (f : Frame) : Control :=
  match st with
  | .continues => .goto (pc + 4)
  | .terminator => t.control f.exitEnv (pc + 4)

/-- What the translation of an instruction owes the guest: it pushes nodes, with arguments that come
first, and if it is accepted and the guest can go on, they do what the instruction does.  `Inv`
holds of the machine all the time. -/
structure InstTranslator.Follows (T : InstTranslator) (step : NodeStep Frame) (guest : Guest.Step)
    (Inv : Machine → Prop) : Prop where
  appends : ∀ {b : Block} {l : List ValueRef}, b.Linked l → 0 < b.code.size → ∀ pc inst, ∃ as,
    (T.translateInstruction b pc inst).1.nodes = (b.pushAll as).nodes ∧ Block.Scoped b.code.size as ∧
      ∀ st, (T.translateInstruction b pc inst).2 = .ok st → ∀ f : Frame, Inv f.machine →
        ∀ r, guest pc inst f.machine = some r → ∃ f', Prog.exec step b.code.size as f = some f' ∧
          r = (f'.machine, st.leads (T.translateInstruction b pc inst).1.terminal pc f') ∧ Inv f'.machine

section simulates

variable (step : NodeStep Frame) (guest : Guest.Step) (code : U64 → Option U32) (Inv : Machine → Prop)
  (start : U64)

/-- The nodes, from the first one of a block on, do what `n` guest instructions do, and lead to
`leads`. -/
def Simulates (n : Nat) (as : List Armlet) (leads : Frame → Control) : Prop :=
  ∀ f : Frame, Inv f.machine → ∀ r, Guest.run guest code n start f.machine = some r →
    ∃ f', Prog.exec step 1 as f = some f' ∧ r = (f'.machine, leads f') ∧ Inv f'.machine

variable {step guest code Inv start} {n : Nat} {as as' : List Armlet} {leads : Frame → Control} {pc : U64}

theorem simulates_nil : Simulates step guest code Inv start 0 [] fun _ => .goto start := by
  intro f hf r hr
  cases hr
  exact ⟨f, rfl, rfl, hf⟩

/-- One more instruction. -/
theorem Simulates.snoc (h : Simulates step guest code Inv start n as fun _ => .goto pc) {inst : U32}
    (hcode : code pc = some inst) (hnext : ∀ f : Frame, Inv f.machine → ∀ r, guest pc inst f.machine = some r →
      ∃ f', Prog.exec step (1 + as.length) as' f = some f' ∧ r = (f'.machine, leads f') ∧ Inv f'.machine) :
    Simulates step guest code Inv start (n + 1) (as ++ as') leads := by
  intro f hf r hr
  rw [Guest.run_succ] at hr
  obtain ⟨r₁, hr₁, hr⟩ := Option.bind_eq_some_iff.mp hr
  obtain ⟨f₁, hexec, rfl, hf₁⟩ := h f hf r₁ hr₁
  rw [Guest.next, Guest.stepAt, hcode, Option.bind_some] at hr
  obtain ⟨f', hexec', hr', hf'⟩ := hnext f₁ hf₁ r hr
  refine ⟨f', ?_, hr', hf'⟩
  rw [Prog.exec_append, hexec]
  exact hexec'

end simulates

namespace Translation

variable {σ : Type} (step : NodeStep Frame) (guest : Guest.Step) (code : U64 → Option U32)
  (Inv : Machine → Prop)
  (startPc : U64)

/-- Before every instruction: the nodes of the block do what the guest does up to the PC. -/
def Reached (t : Translation σ) : Prop :=
  ∃ as, t.block.nodes = ((Block.new startPc).pushAll as).nodes ∧ Block.Scoped 1 as ∧
    Simulates step guest code Inv startPc t.block.cycles.toNat as fun _ => .goto t.pc

/-- What a branch that was followed kept is the block up to the branch. -/
def Recovers (t : Translation σ) : Prop :=
  ∀ fl, t.followed = some fl → ∃ as as', t.block.nodes = ((Block.new startPc).pushAll (as ++ as')).nodes ∧
    fl.mark = ((Block.new startPc).pushAll as).mark ∧ Block.Scoped 1 as ∧
    Simulates step guest code Inv startPc fl.cycles.toNat as fun f =>
      fl.terminal.control f.exitEnv (fl.branchPc + 4)

/-- The block is finished. -/
def Ends (t : Translation σ) : Prop :=
  ∃ as, t.block.nodes = ((Block.new startPc).pushAll as).nodes ∧ Block.Scoped 1 as ∧
    Simulates step guest code Inv startPc t.block.cycles.toNat as fun f =>
      t.block.terminal.control f.exitEnv t.block.endPc

variable {step guest code Inv startPc} {T : InstTranslator} {fetch : U64 → σ → Option U32 × σ}
  {opts : TranslateOptions} {max : U32} {t t' : Translation σ}

section nodes

variable {b b' : Block} {as as' : List Armlet}

theorem linked_of_nodes (h : b.nodes = ((Block.new startPc).pushAll as).nodes) : ∃ l, b.Linked l :=
  ⟨_, ((Block.Linked.new startPc).pushAll Nat.one_pos as).of_nodes h⟩

theorem size_of_nodes (h : b.nodes = ((Block.new startPc).pushAll as).nodes) : b.code.size = 1 + as.length := by
  rw [show b.code = ((Block.new startPc).pushAll as).code from congrArg Prod.fst h, Block.size_pushAll]
  rfl

theorem nodes_append (h : b.nodes = ((Block.new startPc).pushAll as).nodes)
    (h' : b'.nodes = (b.pushAll as').nodes) :
    b'.nodes = ((Block.new startPc).pushAll (as ++ as')).nodes := by
  rw [h', Block.pushAll_append, Block.pushAll_nodes h]

theorem mark_of_nodes (h : b.nodes = b'.nodes) : b.mark = b'.mark := by
  simp only [Block.nodes, Prod.mk.injEq] at h
  rw [Block.mark, Block.mark, h.1, h.2.2]

end nodes

/-! ## One turn -/

theorem toNat_saturatingSucc {c : U32} (h : c < max) : (saturatingSucc c).toNat = c.toNat + 1 := by
  have hmax := max.isLt
  rw [BitVec.lt_def] at h
  have hne : c ≠ BitVec.allOnes 32 := by
    rintro rfl
    rw [BitVec.toNat_allOnes] at h
    omega
  rw [saturatingSucc, if_neg hne, BitVec.toNat_add, Nat.mod_eq_of_lt]
  · rfl
  · show c.toNat + 1 < _
    omega

/-- More nodes do not change what was kept. -/
theorem Recovers.append (h : t.Recovers step guest code Inv startPc) {as : List Armlet}
    (hnodes : t'.block.nodes = (t.block.pushAll as).nodes) (hfollowed : t'.followed = t.followed) :
    t'.Recovers step guest code Inv startPc := by
  intro fl hfl
  obtain ⟨as₀, as₁, hold, hmark, hkept⟩ := h fl (hfollowed ▸ hfl)
  refine ⟨as₀, as₁ ++ as, ?_, hmark, hkept⟩
  rw [← List.append_assoc]
  exact nodes_append hold hnodes

/-- Nor do the memory and the frame of the block. -/
theorem Recovers.frame (h : t.Recovers step guest code Inv startPc) (hnodes : t'.block.nodes = t.block.nodes)
    (hfollowed : t'.followed = t.followed) : t'.Recovers step guest code Inv startPc := by
  intro fl hfl
  obtain ⟨as₀, as₁, hold, hkept⟩ := h fl (hfollowed ▸ hfl)
  exact ⟨as₀, as₁, hnodes.trans hold, hkept⟩

/-- After a terminator the block ends there, or goes on at the target of a branch. -/
theorem ends_or_follows (opts : TranslateOptions) (max : U32) {as : List Armlet}
    (hnodes : t.block.nodes = ((Block.new startPc).pushAll as).nodes) (hscoped : Block.Scoped 1 as)
    (hsim : Simulates step guest code Inv startPc t.block.cycles.toNat as fun f =>
      t.block.terminal.control f.exitEnv (t.pc + 4)) :
    ((t.terminate opts max).2 = true ∧ (t.terminate opts max).1.Ends step guest code Inv startPc) ∨
      (t.terminate opts max).2 = false ∧ (t.terminate opts max).1.Reached step guest code Inv startPc ∧
        (t.terminate opts max).1.Recovers step guest code Inv startPc := by
  rw [terminate]
  split
  · next target link hterminal =>
    split
    · refine .inr ⟨rfl, ⟨as, hnodes, hscoped, ?_⟩, ?_⟩
      · rw [hterminal] at hsim
        exact hsim
      · rintro fl ⟨⟩
        exact ⟨as, [], by rw [List.append_nil]; exact hnodes, mark_of_nodes hnodes, hscoped, hsim⟩
    · exact .inl ⟨rfl, as, hnodes, hscoped, hsim⟩
  · exact .inl ⟨rfl, as, hnodes, hscoped, hsim⟩

/-- What a turn leaves: another state of the loop, a finished block, or an error behind which the
last branch can be taken back. -/
def Turned (step : NodeStep Frame) (guest : Guest.Step) (code : U64 → Option U32) (Inv : Machine → Prop)
    (startPc : U64) : Translation σ × Except Error Bool → Prop
  | (t, .ok false) => t.Reached step guest code Inv startPc ∧ t.Recovers step guest code Inv startPc
  | (t, .ok true) => t.Ends step guest code Inv startPc
  | (t, .error _) => t.Recovers step guest code Inv startPc

theorem Reached.turn (hT : T.Follows step guest Inv) (hfetch : ∀ pc s, (fetch pc s).1 = code pc)
    (opts : TranslateOptions) (h : t.Reached step guest code Inv startPc)
    (hr : t.Recovers step guest code Inv startPc) (hlt : t.block.cycles < max) :
    Turned step guest code Inv startPc (t.step T fetch opts max) := by
  obtain ⟨as, hnodes, hscoped, hsim⟩ := h
  rw [Translation.step]
  dsimp only
  rw [hfetch]
  split
  · exact hr.frame rfl rfl
  · next inst hcode =>
    obtain ⟨l, hl⟩ := linked_of_nodes hnodes
    have hsize := size_of_nodes hnodes
    obtain ⟨as', hnodes', hscoped', hfollows⟩ := hT.appends hl (by omega) t.pc inst
    have hall := nodes_append hnodes hnodes'
    have hkept :
        Recovers step guest code Inv startPc { t with block := (T.translateInstruction t.block t.pc inst).1 } :=
      hr.append hnodes' rfl
    split
    · exact hkept.frame rfl rfl
    · next st hst =>
      set b' := (T.translateInstruction t.block t.pc inst).1 with hb'
      have hcycles : (t.count b').block.cycles.toNat = t.block.cycles.toNat + 1 := by
        rw [count]
        dsimp only
        rw [hb', T.cycles_eq]
        exact toNat_saturatingSucc hlt
      have hboth : Block.Scoped 1 (as ++ as') := hscoped.append (hsize ▸ hscoped')
      have hnext : Simulates step guest code Inv startPc (t.block.cycles.toNat + 1) (as ++ as')
          (st.leads b'.terminal t.pc) :=
        hsim.snoc hcode (by rw [← hsize]; exact hfollows st hst)
      rw [← hcycles] at hnext
      cases st with
      | continues => exact ⟨⟨as ++ as', hall, hboth, hnext⟩, hkept.frame rfl rfl⟩
      | terminator =>
        dsimp only
        obtain ⟨hended, hends⟩ | ⟨hended, hreached, hrec⟩ := @ends_or_follows σ step guest code Inv startPc
          (({ t with memory := (fetch t.pc t.memory).2 } : Translation σ).count b') opts max _ hall hboth hnext
        · rw [hended]
          exact hends
        · rw [hended]
          exact ⟨hreached, hrec⟩

/-- The loop. -/
theorem Reached.loop (hT : T.Follows step guest Inv) (hfetch : ∀ pc s, (fetch pc s).1 = code pc)
    (opts : TranslateOptions) (max : U32) (n : Nat) (h : t.Reached step guest code Inv startPc)
    (hr : t.Recovers step guest code Inv startPc) :
    Turned step guest code Inv startPc (Translation.loop T fetch opts max n t) := by
  induction n generalizing t with
  | zero => exact ⟨h, hr⟩
  | succ n ih =>
    rw [Translation.loop]
    split
    · next hlt =>
      have hturn := h.turn hT hfetch opts hr hlt
      split
      · next t' heq =>
        rw [heq] at hturn
        exact ih hturn.1 hturn.2
      · next heq =>
        rw [heq] at hturn
        exact hturn
    · exact ⟨h, hr⟩

/-! ## The block -/

/-- At the cap the block leads to the next instruction. -/
theorem Reached.link (h : t.Reached step guest code Inv startPc) : t.link.Ends step guest code Inv startPc := h

/-- Behind an error the block ends at the branch that was followed last. -/
theorem Recovers.undo (h : t.Recovers step guest code Inv startPc) {fl : Followed}
    (hfl : t.followed = some fl) :
    (t.undo fl).Ends step guest code Inv startPc := by
  obtain ⟨as, as', hnodes, hmark, hkept⟩ := h fl hfl
  refine ⟨as, ?_, hkept⟩
  show (t.block.rollback fl.mark).nodes = _
  rw [Block.rollback_nodes hnodes, hmark, Block.pushAll_append]
  exact ((Block.Linked.new startPc).pushAll Nat.one_pos as).rollback_pushAll
    (by rw [Block.size_pushAll]; exact Nat.lt_add_right _ Nat.one_pos) as'

theorem Turned.finish {r : Translation σ × Except Error Bool} (h : Turned step guest code Inv startPc r)
    (hok : (r.1.finish r.2).2 = .ok ()) : (r.1.finish r.2).1.Ends step guest code Inv startPc := by
  rcases r with ⟨t, ⟨e⟩ | ⟨_ | _⟩⟩
  · rw [Translation.finish] at hok ⊢
    dsimp only at hok ⊢
    split at hok
    · cases hok
    · next fl hfl => exact h.undo hfl
  · exact h.1.link
  · exact h

end Translation

section block

variable {σ : Type} {step : NodeStep Frame} {guest : Guest.Step} {code : U64 → Option U32}
  {Inv : Machine → Prop}
  {startPc : U64} {T : InstTranslator} {fetch : U64 → σ → Option U32 × σ} {opts : TranslateOptions}
  {t : Translation σ}

theorem translateBlockInto_ends (hT : T.Follows step guest Inv) (hfetch : ∀ pc s, (fetch pc s).1 = code pc)
    {block : Block} {memory : σ} (h : translateBlockInto T block startPc fetch memory opts = (t, .ok ())) :
    t.Ends step guest code Inv startPc := by
  have hstart : Translation.Reached step guest code Inv startPc
      (⟨block.reset startPc, memory, startPc, startPc, none, []⟩ : Translation σ) :=
    ⟨[], rfl, Block.scoped_nil 1, simulates_nil⟩
  have hturned := hstart.loop hT hfetch opts (if opts.maxInsts = 0 then 1 else opts.maxInsts)
    (if opts.maxInsts = 0 then 1 else opts.maxInsts).toNat nofun
  rw [translateBlockInto] at h
  have hend := hturned.finish (congrArg Prod.snd h)
  rwa [show Translation.finish _ _ = _ from h] at hend

/-- The arguments of a node come before it. -/
theorem translateBlockInto_ssa (hT : T.Follows step guest Inv) (hfetch : ∀ pc s, (fetch pc s).1 = code pc)
    {block : Block} {memory : σ} (h : translateBlockInto T block startPc fetch memory opts = (t, .ok ())) :
    ∃ l, t.block.Linked l ∧ t.block.Ssa l := by
  obtain ⟨as, hnodes, hscoped, -⟩ := translateBlockInto_ends hT hfetch h
  refine ⟨_, ((Block.Linked.new startPc).pushAll Nat.one_pos as).of_nodes hnodes, ?_⟩
  have hssa := Block.ssa_pushAll_new hscoped startPc
  have hget : t.block.get = ((Block.new startPc).pushAll as).get := by
    funext v
    rw [Block.get, Block.get, show t.block.code = _ from congrArg Prod.fst hnodes]
    rfl
  rw [Block.Ssa, hget]
  exact hssa

/-- **A block does what the guest does.** -/
theorem translateBlockInto_follows (hT : T.Follows step guest Inv) (hlinks : IgnoresLinks step)
    (hfetch : ∀ pc s, (fetch pc s).1 = code pc) {block : Block} {memory : σ}
    (h : translateBlockInto T block startPc fetch memory opts = (t, .ok ())) {f : Frame} (hf : Inv f.machine)
    {r : Machine × Control} (hr : Guest.run guest code t.block.cycles.toNat startPc f.machine = some r) :
    ∃ f', t.block.run step f = some f' ∧ r = (f'.machine, t.block.terminal.control f'.exitEnv t.block.endPc) ∧
      Inv f'.machine := by
  obtain ⟨as, hnodes, -, hsim⟩ := translateBlockInto_ends hT hfetch h
  obtain ⟨f', hexec, hr', hf'⟩ := hsim f hf r hr
  refine ⟨f', ?_, hr', hf'⟩
  rw [Block.run_of_nodes hnodes, (Block.Linked.new startPc).run_pushAll Nat.one_pos hlinks]
  exact hexec

end block

end Rustarmic
