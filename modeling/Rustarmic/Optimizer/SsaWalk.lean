import Rustarmic.Ir.Ssa
import Rustarmic.Optimizer.AffineExact
import Rustarmic.Optimizer.LinkedRun

/-!
# Arguments stay available

The forward walk hands on values: it looks through identities, replaces reads by what was written,
and puts operations on operands of operands in place of nodes.  Whatever it hands on is a live node
in front of the cursor that computes something.

* `Fed b S l`: the arguments of the nodes in `l` are in `S` or earlier nodes of `l` that compute
  something.
* `Sound` is the invariant of an iteration: the list on both sides of the cursor, the arguments of
  the copy, the register tables and the sources of the affine maps.
* `forwardWalk_fed`: a clean walk of a list in SSA form leaves one in SSA form.
-/

set_option autoImplicit false

namespace Rustarmic

namespace Optimizer

open Block

/-- The operation computes a value: the node is not cleared and no plain write of a register. -/
def computes (op : Op) : Bool :=
  op != .void && op != .setX && op != .setW && op != .setSp && op != .setNzcv

variable {s : WalkState} {b b' : Block} {a : Armlet} {vr v x dead : ValueRef}
  {l l₁ l₂ done rest : List ValueRef} {S S' : ValueRef → Prop}

theorem Slot.not_computes {k : Slot} (h : k.writes a) : computes a.op = false := by
  rcases k with reg | - | -
  · rcases h.1 with h | h <;> rw [h] <;> rfl
  · rw [show a.op = .setSp from h]
    rfl
  · rw [show a.op = .setNzcv from h]
    rfl

/-- The write a node makes dead computes nothing. -/
theorem Pending.deadStore_computes (h : Pending s done) (hs : (deadStore s a).isSome) :
    computes (s.block.get (deadStore s a)).op = false := by
  rw [deadStore_eq] at hs ⊢
  cases hk : killed a with
  | none =>
    rw [hk] at hs
    cases hs
  | some k =>
    rw [hk] at hs
    exact Slot.not_computes (h k (by simpa using hs)).2

/-! ## Lists in SSA form -/

/-- The arguments in use. -/
def argsOf (a : Armlet) : List ValueRef := a.args.toList.filter ValueRef.isSome

theorem mem_argsOf : x ∈ argsOf a ↔ x ∈ a.args.toList ∧ x.isSome := List.mem_filter

theorem get_mem_argsOf (k : Fin 4) (h : (a.args.get k).isSome) : a.args.get k ∈ argsOf a :=
  mem_argsOf.mpr ⟨Vector.mem_toList_iff.mpr (Vector.getElem_mem k.isLt), h⟩

theorem op_of_bare (h : (b'.get v).bare = (b.get v).bare) : (b'.get v).op = (b.get v).op := by
  rw [← Armlet.bare_op, h, Armlet.bare_op]

theorem argsOf_of_bare (h : (b'.get v).bare = (b.get v).bare) : argsOf (b'.get v) = argsOf (b.get v) := by
  have hargs : (b'.get v).args = (b.get v).args :=
    (congrArg Armlet.args h : (b'.get v).bare.args = (b.get v).bare.args)
  rw [argsOf, argsOf, hargs]

/-- The arguments of the nodes in a list are in `S` or earlier nodes that compute something. -/
def Fed (b : Block) : (ValueRef → Prop) → List ValueRef → Prop
  | _, [] => True
  | S, v :: l => (∀ x ∈ argsOf (b.get v), S x) ∧ Fed b (fun x => S x ∨ (x = v ∧ computes (b.get v).op)) l

/-- A node of `done` that computes something. -/
def Held (b : Block) (done : List ValueRef) (x : ValueRef) : Prop :=
  x ∈ done ∧ computes (b.get x).op

namespace Fed

theorem mono (h : Fed b S l) (hS : ∀ x, S x → S' x) : Fed b S' l := by
  induction l generalizing S S' with
  | nil => trivial
  | cons v l ih => exact ⟨fun x hx => hS x (h.1 x hx), ih h.2 fun x hx => hx.imp_left (hS x)⟩

/-- Only what the list refers to has to be there. -/
theorem narrow (h : Fed b S l) (hS : ∀ w ∈ l, ∀ x ∈ argsOf (b.get w), S x → S' x) : Fed b S' l := by
  induction l generalizing S S' with
  | nil => trivial
  | cons v l ih =>
    refine ⟨fun x hx => hS v List.mem_cons_self x hx (h.1 x hx), ih h.2 fun w hw x hx hs => ?_⟩
    exact hs.imp_left (hS w (List.mem_cons_of_mem v hw) x hx)

theorem congr (h : Fed b S l) (hb : ∀ w ∈ l, (b'.get w).bare = (b.get w).bare) : Fed b' S l := by
  induction l generalizing S with
  | nil => trivial
  | cons v l ih =>
    have hv := hb v List.mem_cons_self
    refine ⟨fun x hx => h.1 x (argsOf_of_bare hv ▸ hx), ?_⟩
    rw [op_of_bare hv]
    exact ih h.2 fun w hw => hb w (List.mem_cons_of_mem v hw)

theorem append : Fed b S (l₁ ++ l₂) ↔
    Fed b S l₁ ∧ Fed b (fun x => S x ∨ Held b l₁ x) l₂ := by
  induction l₁ generalizing S with
  | nil => simp [Fed, Held]
  | cons v l ih =>
    have hset : (fun x => (S x ∨ (x = v ∧ computes (b.get v).op)) ∨ Held b l x) =
        fun x => S x ∨ Held b (v :: l) x := by
      funext x
      refine propext ⟨?_, ?_⟩
      · rintro ((hs | ⟨rfl, hc⟩) | ⟨hm, hc⟩)
        · exact Or.inl hs
        · exact Or.inr ⟨List.mem_cons_self, hc⟩
        · exact Or.inr ⟨List.mem_cons_of_mem v hm, hc⟩
      · rintro (hs | ⟨hm, hc⟩)
        · exact Or.inl (Or.inl hs)
        · rcases List.mem_cons.mp hm with rfl | hm
          · exact Or.inl (Or.inr ⟨rfl, hc⟩)
          · exact Or.inr ⟨hm, hc⟩
    rw [List.cons_append, Fed, Fed, ih, hset, and_assoc]

/-- Nothing refers to a node that computes nothing. -/
theorem erase (h : Fed b S (l₁ ++ dead :: l₂)) (hd : computes (b.get dead).op = false) :
    Fed b S (l₁ ++ l₂) := by
  obtain ⟨h₁, -, h₂⟩ := append.mp h
  refine append.mpr ⟨h₁, h₂.mono fun x hx => ?_⟩
  rcases hx with hx | ⟨-, hc⟩
  · exact hx
  · rw [hd] at hc
    cases hc

/-- A part of the list that has the arguments of its nodes. -/
theorem sublist {k : List ValueRef} (h : Fed b S l) (hk : k.Sublist l) (hnd : l.Nodup)
    (hargs : ∀ w ∈ k, ∀ x ∈ argsOf (b.get w), x ∈ l → x ∈ k) : Fed b S k := by
  induction hk generalizing S with
  | slnil => trivial
  | @cons k l v hk ih =>
    obtain ⟨hv, hnd⟩ := List.nodup_cons.mp hnd
    refine (ih h.2 hnd fun w hw x hx hm => hargs w hw x hx (List.mem_cons_of_mem v hm)).narrow
      fun w hw x hx hs => hs.resolve_right ?_
    rintro ⟨rfl, -⟩
    exact hv (hk.subset (hargs w hw x hx List.mem_cons_self))
  | @cons_cons k l v hk ih =>
    obtain ⟨hv, hnd⟩ := List.nodup_cons.mp hnd
    refine ⟨h.1, ih h.2 hnd fun w hw x hx hm => ?_⟩
    refine (List.mem_cons.mp (hargs w (List.mem_cons_of_mem v hw) x hx
      (List.mem_cons_of_mem v hm))).resolve_left ?_
    rintro rfl
    exact hv hm

theorem held_args (h : Fed b (fun _ => False) done) (hx : v ∈ done) :
    ∀ x ∈ argsOf (b.get v), Held b done x := by
  obtain ⟨k, m, rfl⟩ := List.append_of_mem hx
  intro x hx
  obtain ⟨-, hv, -⟩ := append.mp h
  obtain ⟨hm, hc⟩ := (hv x hx).resolve_left id
  exact ⟨List.mem_append_left _ hm, hc⟩

theorem ssa (h : Fed b (fun _ => False) l) : b.Ssa l := by
  rintro l₁ v l₂ rfl x hx hs
  obtain ⟨-, hv, -⟩ := append.mp h
  exact ((hv x (mem_argsOf.mpr ⟨hx, hs⟩)).resolve_left id).1

end Fed

/-- A list in SSA form whose arguments compute something. -/
theorem fed_of_ssa (h : b.Ssa l) (hc : ∀ v ∈ l, ∀ x ∈ argsOf (b.get v), computes (b.get x).op) :
    Fed b (fun _ => False) l := by
  induction l using List.reverseRecOn with
  | nil => trivial
  | append_singleton l v ih =>
    have hssa : b.Ssa l := by
      rintro l₁ w l₂ rfl x hx hs
      exact h l₁ w (l₂ ++ [v]) (by simp) x hx hs
    refine Fed.append.mpr ⟨ih hssa fun w hw => hc w (List.mem_append_left _ hw),
      fun x hx => Or.inr ⟨?_, hc v (by simp) x hx⟩, trivial⟩
    obtain ⟨hx, hs⟩ := mem_argsOf.mp hx
    exact h l v [] rfl x hx hs

/-! ## What the arms hand on -/

/-- The values the register tables have on offer. -/
def WalkState.Offers (s : WalkState) (x : ValueRef) : Prop :=
  (∃ reg, s.reachX reg = x) ∨ s.reachSp = x ∨ s.reachNzcv = x ∨ ∃ reg, s.firstGetx reg = x

/-- What an arm hands on: arguments of the node, values on offer, and the node itself. -/
structure HandsOn (s : WalkState) (vr : ValueRef) (a : Armlet) (r : WalkState × Armlet) : Prop where
  args : ∀ x ∈ argsOf r.2, x ∈ argsOf a ∨ s.Offers x
  offers : ∀ x, x.isSome → r.1.Offers x → s.Offers x ∨ x ∈ argsOf a ∨ (x = vr ∧ computes r.2.op)
  keeps : computes a.op → computes r.2.op
  affines : r.1.affines = s.affines

theorem argsOf_becomeIdentity (hx : x ∈ argsOf (a.becomeIdentity v)) : x = v ∧ x.isSome := by
  obtain ⟨hx, hs⟩ := mem_argsOf.mp hx
  have hmem : x ∈ [v, ValueRef.none, ValueRef.none, ValueRef.none] := hx
  simp only [List.mem_cons, List.not_mem_nil, or_false, or_self] at hmem
  rcases hmem with rfl | rfl
  · exact ⟨rfl, hs⟩
  · cases hs

theorem argsOf_noArgs (ha : a.args = Armlet.noArgs) : argsOf a = [] := by
  rw [argsOf, ha]
  rfl

namespace HandsOn

variable {r : WalkState × Armlet}

theorem same (ha : r.2 = a) (hx : r.1.reachX = s.reachX) (hsp : r.1.reachSp = s.reachSp)
    (hn : r.1.reachNzcv = s.reachNzcv) (hf : r.1.firstGetx = s.firstGetx)
    (haff : r.1.affines = s.affines) : HandsOn s vr a r where
  args x hx := Or.inl (ha ▸ hx)
  offers x _ h := Or.inl (by rwa [WalkState.Offers, hx, hsp, hn, hf] at h)
  keeps h := ha.symm ▸ h
  affines := haff

theorem identity (ho : v.isSome → v ∈ argsOf a ∨ s.Offers v) :
    HandsOn s vr a (s, a.becomeIdentity v) where
  args x hx := by
    obtain ⟨rfl, hs⟩ := argsOf_becomeIdentity (a := a) (v := v) hx
    exact ho hs
  offers _ _ h := Or.inl h
  keeps _ := rfl
  affines := rfl

theorem becomeConst (s : WalkState) (vr : ValueRef) (a : Armlet) (c : U64) :
    HandsOn s vr a (s, becomeConst a c) where
  args x hx := by
    rw [Optimizer.becomeConst] at hx
    split at hx
    · rw [argsOf_noArgs rfl] at hx
      cases hx
    · rw [argsOf_noArgs rfl] at hx
      cases hx
    · exact Or.inl hx
  offers _ _ h := Or.inl h
  keeps h := by
    rw [Optimizer.becomeConst]
    split
    · rfl
    · rfl
    · exact h
  affines := rfl

end HandsOn

theorem reduceAnd_identity {ones : U64} {arg0 arg1 : ValueRef} {c0 c1 : Option U64}
    (h : reduceAnd ones arg0 arg1 c0 c1 = some (.toIdentity v)) : v = arg0 ∨ v = arg1 := by
  rw [reduceAnd] at h
  split_ifs at h <;> cases h <;> simp

theorem reduceOr_identity {ones : U64} {arg0 arg1 : ValueRef} {c0 c1 : Option U64}
    (h : reduceOr ones arg0 arg1 c0 c1 = some (.toIdentity v)) : v = arg0 ∨ v = arg1 := by
  rw [reduceOr] at h
  split_ifs at h <;> cases h <;> simp

/-- A node is reduced to one of its first two operands. -/
theorem tryStrengthReduce_identity {op : Op} {consts : Consts}
    (h : tryStrengthReduce op a consts = some (.toIdentity v)) :
    v = a.args.get 0 ∨ v = a.args.get 1 := by
  rw [tryStrengthReduce.eq_def] at h
  dsimp only at h
  split at h
  case h_5 | h_6 => exact reduceAnd_identity h
  case h_7 | h_8 => exact reduceOr_identity h
  all_goals
    first
    | (split_ifs at h <;> cases h <;> simp)
    | cases h

theorem visitPure_handsOn (h : combines s a = false) (hpure : a.op.isPure = true) :
    HandsOn s vr a (visitPure s vr a) := by
  rw [visitPure]
  rw [combines, hpure] at h
  cases hf : tryFold a.op a s.consts with
  | some c => exact .becomeConst s vr a c
  | none =>
    cases hr : tryStrengthReduce a.op a s.consts with
    | some r =>
      cases r with
      | toConst c => exact .becomeConst s vr a c
      | toIdentity w =>
        show HandsOn s vr a (s, a.becomeIdentity w)
        refine .identity fun hs => Or.inl ?_
        rcases tryStrengthReduce_identity hr with rfl | rfl <;> exact get_mem_argsOf _ hs
    | none =>
      cases hc : tryCombineConst a s.block s.consts with
      | none => exact .same rfl rfl rfl rfl rfl rfl
      | some r =>
        rw [hf, hr, hc] at h
        cases h

theorem visitGetX_handsOn (h : a.op = .getX) : HandsOn s vr a (visitGetX s vr a) := by
  rw [visitGetX]
  split_ifs
  · exact .identity (fun _ => Or.inr (Or.inl ⟨_, rfl⟩))
  · exact .identity (fun _ => Or.inr (Or.inr (Or.inr (Or.inr ⟨_, rfl⟩))))
  · refine ⟨fun x hx => Or.inl hx, fun x _ ho => ?_, id, rfl⟩
    rcases ho with ho | ho | ho | ⟨reg, ho⟩
    · exact Or.inl (Or.inl ho)
    · exact Or.inl (Or.inr (Or.inl ho))
    · exact Or.inl (Or.inr (Or.inr (Or.inl ho)))
    · dsimp only at ho
      by_cases heq : reg = a.imm.toNat
      · rw [heq, Function.update_self] at ho
        exact Or.inr (Or.inr ⟨ho.symm, by rw [h]; rfl⟩)
      · rw [Function.update_of_ne heq] at ho
        exact Or.inl (Or.inr (Or.inr (Or.inr ⟨reg, ho⟩)))
  · exact .same rfl rfl rfl rfl rfl rfl

theorem visitGetW_handsOn : HandsOn s vr a (visitGetW s a) := by
  rw [visitGetW]
  split_ifs
  · have h : HandsOn s vr a (s, a.becomeIdentity (s.reachX a.imm.toNat)) :=
      .identity fun _ => Or.inr (Or.inl ⟨_, rfl⟩)
    exact ⟨h.args, h.offers, fun _ => rfl, rfl⟩
  · exact .same rfl rfl rfl rfl rfl rfl
  · exact .same rfl rfl rfl rfl rfl rfl

theorem visitSetV_handsOn : HandsOn s vr a (visitSetV s a, a) := by
  rw [visitSetV]
  split_ifs <;> exact .same rfl rfl rfl rfl rfl rfl

/-- A write of an operand, or of nothing, to a general register. -/
theorem visitSetGpr_handsOn {reach : ValueRef} (h : reach.isSome → reach ∈ argsOf a) :
    HandsOn s vr a (visitSetGpr s vr a reach, a) := by
  rw [visitSetGpr]
  split_ifs
  · refine ⟨fun x hx => Or.inl hx, fun x hs ho => ?_, id, rfl⟩
    rcases ho with ⟨reg, ho⟩ | ho | ho | ⟨reg, ho⟩
    · dsimp only at ho
      by_cases heq : reg = a.imm.toNat
      · rw [heq, Function.update_self] at ho
        exact Or.inr (Or.inl (ho ▸ h (ho.symm ▸ hs)))
      · rw [Function.update_of_ne heq] at ho
        exact Or.inl (Or.inl ⟨reg, ho⟩)
    · exact Or.inl (Or.inr (Or.inl ho))
    · exact Or.inl (Or.inr (Or.inr (Or.inl ho)))
    · dsimp only at ho
      by_cases heq : reg = a.imm.toNat
      · rw [heq, Function.update_self] at ho
        rw [← ho] at hs
        cases hs
      · rw [Function.update_of_ne heq] at ho
        exact Or.inl (Or.inr (Or.inr (Or.inr ⟨reg, ho⟩)))
  · exact .same rfl rfl rfl rfl rfl rfl

/-- **What the large case distinction hands on** where it combines nothing. -/
theorem visitOp_handsOn (h : combines s a = false) : HandsOn s vr a (visitOp s vr a) := by
  have harg0 : (a.args.get 0).isSome → a.args.get 0 ∈ argsOf a := get_mem_argsOf 0
  rw [visitOp.eq_def]
  split
  case h_1 hop => exact visitGetX_handsOn hop
  case h_2 => exact visitGetW_handsOn
  case h_3 =>
    split
    · exact .identity fun _ => Or.inr (Or.inr (Or.inl rfl))
    · exact .same rfl rfl rfl rfl rfl rfl
  case h_4 =>
    split
    · exact .identity fun _ => Or.inr (Or.inr (Or.inr (Or.inl rfl)))
    · exact .same rfl rfl rfl rfl rfl rfl
  case h_5 => exact visitSetV_handsOn
  case h_6 => exact visitSetGpr_handsOn harg0
  case h_7 => exact visitSetGpr_handsOn fun hs => by cases hs
  case h_8 =>
    refine ⟨fun x hx => Or.inl hx, fun x hs ho => ?_, id, rfl⟩
    rcases ho with ho | ho | ho | ho
    · exact Or.inl (Or.inl ho)
    · have hx : a.args.get 0 = x := ho
      subst hx
      exact Or.inr (Or.inl (harg0 hs))
    · exact Or.inl (Or.inr (Or.inr (Or.inl ho)))
    · exact Or.inl (Or.inr (Or.inr (Or.inr ho)))
  case h_9 =>
    refine ⟨fun x hx => Or.inl hx, fun x hs ho => ?_, id, rfl⟩
    rcases ho with ho | ho | ho | ho
    · exact Or.inl (Or.inl ho)
    · exact Or.inl (Or.inr (Or.inl ho))
    · have hx : a.args.get 0 = x := ho
      subst hx
      exact Or.inr (Or.inl (harg0 hs))
    · exact Or.inl (Or.inr (Or.inr (Or.inr ho)))
  case h_22 => exact .same rfl rfl rfl rfl rfl rfl
  case h_23 => exact .same rfl rfl rfl rfl rfl rfl
  case h_24 =>
    split
    case isTrue hpure => exact visitPure_handsOn h hpure
    case isFalse =>
      split
      · exact .same rfl rfl rfl rfl rfl rfl
      · exact .same rfl rfl rfl rfl rfl rfl
  all_goals
    refine ⟨fun x hx => Or.inl hx, fun x hs ho => ?_, id, rfl⟩
    rcases ho with ho | ho | ho | ho
    · exact Or.inl (Or.inl ho)
    · exact Or.inl (Or.inr (Or.inl ho))
    · rw [← ho] at hs
      cases hs
    · exact Or.inl (Or.inr (Or.inr (Or.inr ho)))

/-! ## One iteration -/

/-- The invariant of an iteration, `a` being the copy of the node at `vr`. -/
structure Sound (s : WalkState) (vr : ValueRef) (a : Armlet) (done rest : List ValueRef) : Prop where
  linked : s.block.Linked (done ++ vr :: rest)
  before : Fed s.block (fun _ => False) done
  after : Fed s.block (Held s.block done) (vr :: rest)
  args : ∀ x ∈ argsOf a, Held s.block done x
  /-- The node itself is on offer once it is the first read of a register. -/
  offers : ∀ x, x.isSome → s.Offers x → Held s.block done x ∨ (x = vr ∧ computes a.op)
  affines : ∀ v map, s.affines v = some map → Held s.block done map.source
  keeps : computes (s.block.get vr).op → computes a.op

theorem held_edited {done' : List ValueRef} (he : Edited b b' dead vr done done' rest)
    (hl : b.Linked (done ++ vr :: rest)) (hd : dead.isSome → computes (b.get dead).op = false)
    (hx : Held b done x) : Held b' done' x := by
  have hmem : x ∈ done ++ vr :: rest := List.mem_append_left _ hx.1
  have hne : x ≠ dead := by
    rintro rfl
    have hs : x.isSome := by simpa using hl.ne_none hmem
    exact Bool.false_ne_true ((hd hs).symm.trans hx.2)
  refine ⟨he.keeps x hx.1 hne, ?_⟩
  rw [op_of_bare (he.frame x (hl.bound x hmem) (hl.ne_none hmem) hne)]
  exact hx.2

/-- The nodes from the cursor on are not touched by an edit in front of it. -/
theorem bare_edited {done' : List ValueRef} (he : Edited b b' dead vr done done' rest)
    (hl : b.Linked (done ++ vr :: rest)) (hd : dead.isSome → dead ∈ done) {w : ValueRef}
    (hw : w ∈ vr :: rest) : (b'.get w).bare = (b.get w).bare := by
  have hmem : w ∈ done ++ vr :: rest := List.mem_append_right _ hw
  refine he.frame w (hl.bound w hmem) (hl.ne_none hmem) fun heq => ?_
  have hs : dead.isSome := by simpa [← heq] using hl.ne_none hmem
  exact (List.nodup_append.mp hl.nodup).2.2 _ (hd hs) _ (heq ▸ hw) rfl

/-- An edit in front of the cursor keeps the invariant for what is handed on. -/
theorem Sound.edited {r : WalkState × Armlet} {done' : List ValueRef}
    (h : Sound s vr a done rest) (he : Edited s.block r.1.block dead vr done done' rest)
    (hmem : dead.isSome → dead ∈ done) (hd : dead.isSome → computes (s.block.get dead).op = false)
    (hbefore : Fed r.1.block (fun _ => False) done')
    (hargs : ∀ x ∈ argsOf r.2, Held r.1.block done' x)
    (hoffers : ∀ x, x.isSome → r.1.Offers x →
      Held r.1.block done' x ∨ (x = vr ∧ computes r.2.op))
    (haff : ∀ v map, r.1.affines v = some map → Held r.1.block done' map.source)
    (hkeeps : computes a.op → computes r.2.op) :
    Sound r.1 vr r.2 done' rest where
  linked := he.linked
  before := hbefore
  after := (h.after.mono fun _ hx => held_edited he h.linked hd hx).congr fun _ hw =>
    bare_edited he h.linked hmem hw
  args := hargs
  offers := hoffers
  affines := haff
  keeps hc := by
    rw [op_of_bare (bare_edited he h.linked hmem List.mem_cons_self)] at hc
    exact hkeeps (h.keeps hc)

theorem fed_drop (h : Fed b (fun _ => False) done)
    (he : Edited b b' dead vr done (done.erase dead) rest) (hl : b.Linked (done ++ vr :: rest))
    (hd : dead.isSome → computes (b.get dead).op = false) :
    Fed b' (fun _ => False) (done.erase dead) := by
  have hnd : done.Nodup := (List.nodup_append.mp hl.nodup).1
  have herased : Fed b (fun _ => False) (done.erase dead) := by
    by_cases hm : dead ∈ done
    · obtain ⟨l₁, l₂, -, hsplit, herase⟩ := List.exists_erase_eq hm
      rw [herase]
      rw [hsplit] at h
      exact h.erase (hd (by simpa using hl.ne_none (List.mem_append_left _ hm)))
    · rwa [List.erase_of_not_mem hm]
  refine herased.congr fun w hw => ?_
  have hmem : w ∈ done ++ vr :: rest := List.mem_append_left _ (List.mem_of_mem_erase hw)
  exact he.frame w (hl.bound w hmem) (hl.ne_none hmem) fun heq => hnd.not_mem_erase (heq ▸ hw)

/-- The large case distinction. -/
theorem Sound.visitOp (h : Sound s vr a done rest)
    (hheld : ∀ x, x.isSome → s.Offers x → Held s.block done x)
    (hmem : (deadStore s a).isSome → deadStore s a ∈ done)
    (hd : (deadStore s a).isSome → computes (s.block.get (deadStore s a)).op = false)
    (hc : combines s a = false) :
    ∃ done', Sound (Optimizer.visitOp (resetV s a.op) vr a).1 vr
      (Optimizer.visitOp (resetV s a.op) vr a).2 done' rest := by
  obtain ⟨reachV, hreset⟩ := resetV_frame s a.op
  have hcomb : combines (resetV s a.op) a = false := by rwa [hreset]
  obtain ⟨done', he, -, hq⟩ := visitOp_edited a.op h.linked hmem
  obtain ⟨-, rfl, -⟩ := hq.resolve_right fun h' => by rw [hc] at h'; cases h'.1
  have hhands : HandsOn (resetV s a.op) vr a (Optimizer.visitOp (resetV s a.op) vr a) :=
    visitOp_handsOn hcomb
  obtain ⟨hargs, hoffers, hkeeps, haff⟩ := hhands
  have hreset' : ∀ x, (resetV s a.op).Offers x → s.Offers x := fun x hx => by rwa [hreset] at hx
  have hlift : ∀ {x}, Held s.block done x → _ := fun hx => held_edited he h.linked hd hx
  refine ⟨_, h.edited he hmem hd (fed_drop h.before he h.linked hd) (fun x hx => ?_)
    (fun x hs ho => ?_) (fun v map hmap => ?_) hkeeps⟩
  · rcases hargs x hx with hx' | ho
    · exact hlift (h.args x hx')
    · exact hlift (hheld x (mem_argsOf.mp hx).2 (hreset' x ho))
  · rcases hoffers x hs ho with ho | hx | hself
    · exact Or.inl (hlift (hheld x hs (hreset' x ho)))
    · exact Or.inl (hlift (h.args x hx))
    · exact Or.inr hself
  · rw [haff, hreset] at hmap
    exact hlift (h.affines v map hmap)

/-- The source of a recognized map is an operand. -/
theorem recognize_source {consts : Consts} {vectors : Vectors} {map : ByteMap}
    (h : recognize a b consts vectors = some map) : map.source ∈ argsOf a := by
  obtain ⟨hparts, -, hs, -⟩ := recognize_eq_some h
  rcases recognizeMap_source hparts with heq | heq <;> rw [heq] at hs ⊢ <;>
    exact get_mem_argsOf _ hs

theorem Sound.keep (h : Sound s vr a done rest) {m : Option ByteMap}
    (hm : ∀ map, m = some map → Held s.block done map.source) :
    Sound { s with affines := Function.update s.affines vr m } vr a done rest where
  linked := h.linked
  before := h.before
  after := h.after
  args := h.args
  offers := h.offers
  affines v map hmap := by
    by_cases heq : v = vr
    · rw [heq] at hmap
      exact hm map ((Function.update_self vr m s.affines).symm.trans hmap)
    · exact h.affines v map ((Function.update_of_ne heq m s.affines).symm.trans hmap)
  keeps := h.keeps

/-- The operation and the literal put in place of a node. -/
theorem Sound.affineNode {map : ByteMap} (h : Sound s vr a done rest)
    (hsource : Held s.block done map.source) :
    Sound (affineNode s vr a map).1 vr (affineNode s vr a map).2 (done ++ [s.block.code.size])
      rest := by
  have he := Edited.insert h.linked (c := matrixNode a map) nofun
  have hnone : ∀ {p : Prop}, (ValueRef.none).isSome → p := fun hs => by cases hs
  have hlift : ∀ {x}, Held s.block done x → Held _ _ x :=
    fun hx => held_edited he h.linked hnone hx
  have hnew := @get_insertBefore_new s.block vr (matrixNode a map) (h.linked.ne_none (by simp))
  have hself : Held (s.block.insertBefore vr (matrixNode a map)).1
      (done ++ [s.block.code.size]) s.block.code.size := by
    refine ⟨by simp, ?_⟩
    rw [← Armlet.bare_op, hnew]
    rfl
  refine h.edited he hnone hnone ?_ (fun x hx => ?_) (fun x hs ho => ?_) (fun v map' hmap => ?_)
    fun _ => rfl
  · refine Fed.append.mpr ⟨h.before.congr fun w hw => ?_, fun x hx => ?_, trivial⟩
    · have hmem : w ∈ done ++ vr :: rest := List.mem_append_left _ hw
      exact he.frame w (h.linked.bound w hmem) (h.linked.ne_none hmem) (h.linked.ne_none hmem)
    · have hargs : ((s.block.insertBefore vr (matrixNode a map)).1.get s.block.code.size).args =
          Armlet.noArgs := (congrArg Armlet.args hnew : Armlet.args (Armlet.bare _) = _)
      have hx : x ∈ argsOf ((s.block.insertBefore vr (matrixNode a map)).1.get s.block.code.size) :=
        hx
      rw [argsOf_noArgs hargs] at hx
      cases hx
  · obtain ⟨hx, hs⟩ := mem_argsOf.mp hx
    have hmem : x ∈ [map.source, s.block.code.size, ValueRef.none, ValueRef.none] := hx
    simp only [List.mem_cons, List.not_mem_nil, or_false, or_self] at hmem
    rcases hmem with rfl | rfl | rfl
    · exact hlift hsource
    · exact hself
    · cases hs
  · rcases h.offers x hs ho with hx | ⟨rfl, -⟩
    · exact Or.inl (hlift hx)
    · exact Or.inr ⟨rfl, rfl⟩
  · by_cases heq : v = vr
    · rw [heq] at hmap
      obtain rfl := Option.some.inj ((Function.update_self vr _ s.affines).symm.trans hmap)
      exact hlift hsource
    · exact hlift (h.affines v map' ((Function.update_of_ne heq _ s.affines).symm.trans hmap))

/-- The source of a replacement is a source the walk has recorded, or that of the map itself. -/
theorem Sound.replacementMap {map composed : ByteMap} (h : Sound s vr a done rest)
    (hsource : Held s.block done map.source) (hm : replacementMap s a map = some composed) :
    Held s.block done composed.source := by
  rw [Optimizer.replacementMap] at hm
  split at hm
  next found hfound =>
    obtain rfl := Option.some.inj hm
    obtain ⟨inner, hinner, hfilter⟩ := Option.bind_eq_some_iff.mp hfound
    rw [(compose_exact (Option.filter_eq_some_iff.mp hfilter).1).1]
    exact h.affines _ _ hinner
  next =>
    obtain ⟨_, heq⟩ := Option.ite_none_right_eq_some.mp hm
    obtain rfl := Option.some.inj heq
    exact hsource

theorem Sound.settleAffine {recognized : Option ByteMap} {forwarded : Option ValueRef}
    (h : Sound s vr a done rest)
    (hrec : ∀ map, recognized = some map → Held s.block done map.source) :
    ∃ done', Sound (settleAffine s vr a recognized forwarded).1 vr
      (settleAffine s vr a recognized forwarded).2 done' rest := by
  rw [settleAffine.eq_def]
  dsimp only
  split
  next map =>
    have hkeep := h.keep hrec
    split
    next composed hcomposed =>
      split
      · exact ⟨_, h.affineNode (h.replacementMap (hrec map rfl) hcomposed)⟩
      · exact ⟨done, hkeep⟩
    next => exact ⟨done, hkeep⟩
  next =>
    split
    · exact ⟨done, h.keep fun map hmap => h.affines _ _ hmap⟩
    · split
      · exact ⟨done, h.keep fun map hmap => h.affines _ _ hmap⟩
      · exact ⟨done, h⟩

/-- The affine stage. -/
theorem Sound.visitAffine (h : Sound s vr a done rest) :
    ∃ done', Sound (visitAffine s vr a).1 vr (visitAffine s vr a).2 done' rest := by
  have hnoted : ∀ vectors : Vectors, Sound { s with vectors } vr a done rest := fun _ =>
    ⟨h.linked, h.before, h.after, h.args, h.offers, h.affines, h.keeps⟩
  rw [visitAffine_eq]
  exact (hnoted _).settleAffine fun map hmap => h.args _ (recognize_source hmap)

/-! ## The walk -/

/-- Looking through identities stays among the nodes in front of the cursor. -/
theorem held_forward (h : Fed b (fun _ => False) done) (n : Nat) :
    ∀ v, (v.isSome → Held b done v) → (forward b n v).isSome → Held b done (forward b n v) := by
  induction n with
  | zero => exact fun v hv hs => hv hs
  | succ n ih =>
    intro v hv hs
    rw [forward] at hs ⊢
    split at hs
    next hstop =>
      rw [if_pos hstop]
      exact hv hs
    next hgo =>
      rw [if_neg hgo]
      push Not at hgo
      have hsome : v.isSome := by simpa using hgo.1
      exact ih _ (fun hs' => h.held_args (hv hsome).1 _ (get_mem_argsOf 0 hs')) hs

theorem held_loadNode (h : Fed s.block (fun _ => False) done)
    (hv : ∀ x ∈ argsOf (s.block.get vr), Held s.block done x) :
    ∀ x ∈ argsOf (loadNode s vr), Held s.block done x := by
  intro x hx
  obtain ⟨hx, hs⟩ := mem_argsOf.mp hx
  have hslot : ∀ k : Fin 4, (forwardSlot s.block ((s.block.get vr).args.get k)).isSome →
      Held s.block done (forwardSlot s.block ((s.block.get vr).args.get k)) := fun k =>
    held_forward h _ _ fun hs => hv _ (get_mem_argsOf k hs)
  have hmem : x ∈ [forwardSlot s.block ((s.block.get vr).args.get 0),
    forwardSlot s.block ((s.block.get vr).args.get 1),
    forwardSlot s.block ((s.block.get vr).args.get 2),
    forwardSlot s.block ((s.block.get vr).args.get 3)] := hx
  simp only [List.mem_cons, List.not_mem_nil, or_false] at hmem
  rcases hmem with rfl | rfl | rfl | rfl <;> exact hslot _ hs

/-- The invariant between two iterations, next to the list being linked. -/
structure Threaded (s : WalkState) (done rest : List ValueRef) : Prop where
  before : Fed s.block (fun _ => False) done
  after : Fed s.block (Held s.block done) rest
  offers : ∀ x, x.isSome → s.Offers x → Held s.block done x
  affines : ∀ v map, s.affines v = some map → Held s.block done map.source

/-- What an iteration makes of a copy whose arguments are in front of the cursor. -/
theorem Threaded.visit (h : Threaded s done (vr :: rest)) (ht : Tracks b s done (vr :: rest))
    (hc : CleanAt s vr) :
    ∃ done', Sound (visit s vr).1 vr (visit s vr).2 done' rest := by
  have hload : Sound s vr (loadNode s vr) done rest :=
    ⟨ht.linked, h.before, h.after, held_loadNode h.before h.after.1,
      fun x hs ho => Or.inl (h.offers x hs ho), h.affines, id⟩
  have hmem : (deadStore s (loadNode s vr)).isSome → deadStore s (loadNode s vr) ∈ done :=
    ht.pending.deadStore_mem
  obtain ⟨done₁, h₁⟩ := hload.visitOp h.offers hmem ht.pending.deadStore_computes hc.combine
  rw [Optimizer.visit]
  rcases visitMulFold_cases (visitOp (resetV s (loadNode s vr).op) vr (loadNode s vr)).1 vr
    (visitOp (resetV s (loadNode s vr).op) vr (loadNode s vr)).2 with ⟨-, heq⟩ | ⟨hf, -⟩
  · rw [heq]
    obtain ⟨consts, hrec⟩ := recordConst_frame
      (visitOp (resetV s (loadNode s vr).op) vr (loadNode s vr)).1 vr
      (visitOp (resetV s (loadNode s vr).op) vr (loadNode s vr)).2
    rw [hrec]
    exact Sound.visitAffine ⟨h₁.linked, h₁.before, h₁.after, h₁.args, h₁.offers, h₁.affines, h₁.keeps⟩
  · rw [hc.fold] at hf
    cases hf

/-! ### The terminal -/

theorem terminal_set : (b.set v a).terminal = b.terminal := rfl

theorem terminal_linkNext (v n : Nat) : (b.linkNext v n).terminal = b.terminal := by
  rw [linkNext]
  split <;> rfl

theorem terminal_linkPrev (v p : Nat) : (b.linkPrev v p).terminal = b.terminal := by
  rw [linkPrev]
  split <;> rfl

theorem terminal_unlink (v : ValueRef) : (b.unlink v).terminal = b.terminal := by
  rw [unlink]
  exact (terminal_linkPrev _ _).trans (terminal_linkNext _ _)

theorem terminal_insertBefore (v : ValueRef) (c : Armlet) :
    (b.insertBefore v c).1.terminal = b.terminal := by
  rw [insertBefore]
  exact terminal_linkNext _ _

theorem terminal_step (s : WalkState) (vr : ValueRef) :
    (step s vr).block.terminal = s.block.terminal := by
  rw [step_block, terminal_set, Optimizer.visit]
  obtain ⟨reachV, hreset⟩ := resetV_frame s (loadNode s vr).op
  generalize loadNode s vr = a at *
  have hop : (Optimizer.visitOp (resetV s a.op) vr a).1.block.terminal = s.block.terminal := by
    rcases visitOp_cases (resetV s a.op) vr a with h | ⟨-, -, -, -, c, -, hb⟩
    · rw [h.block_eq, dropStore, hreset]
      split
      · exact terminal_unlink _
      · rfl
    · rw [hb, terminal_insertBefore, hreset]
  generalize Optimizer.visitOp (resetV s a.op) vr a = r₁ at *
  have hfold : (visitMulFold r₁.1 vr r₁.2).1.block.terminal = r₁.1.block.terminal := by
    rcases visitMulFold_cases r₁.1 vr r₁.2 with ⟨-, h⟩ | ⟨-, -, -, c, m, -, -, hb⟩
    · rw [h]
    · rw [hb, terminal_insertBefore, terminal_insertBefore]
  generalize visitMulFold r₁.1 vr r₁.2 = r₂ at *
  obtain ⟨consts, hrec⟩ := recordConst_frame r₂.1 vr r₂.2
  rw [hrec]
  rcases visitAffine_cases { r₂.1 with consts } vr r₂.2 with ⟨hb, -⟩ | ⟨-, c, -, hb, -⟩
  · rw [hb, ← hop, ← hfold]
  · rw [hb, terminal_insertBefore, ← hop, ← hfold]

/-! ### The walk -/

/-- A clean iteration goes on with the next node, and every node that computes something stays in
the list. -/
theorem Threaded.step {b₀ : Block} (h : Threaded s done (vr :: rest))
    (ht : Tracks b₀ s done (vr :: rest)) (hc : CleanAt s vr) :
    ∃ done', Tracks b₀ (step s vr) done' rest ∧ Threaded (step s vr) done' rest ∧
      ∀ x, Held s.block (done ++ vr :: rest) x → Held (step s vr).block (done' ++ rest) x := by
  obtain ⟨done₁, h₁⟩ := h.visit ht hc
  obtain ⟨done', ht'⟩ := ht.step hc
  obtain ⟨done₂, he, hprev, hnext, -⟩ := visit_edited ht.linked ht.pending
  have hvr : vr ∈ done₂ ++ vr :: rest := by simp
  -- the list after the iteration is the one the invariant of the iteration speaks of
  have hdone : done₂ = done₁ := List.append_cancel_right (he.linked.det h₁.linked)
  have hset : (Optimizer.step s vr).block.Linked (done₂ ++ vr :: rest) := by
    refine he.linked.set hvr ?_ ?_
    · rw [hnext, ht.linked.next_eq, he.linked.next_eq]
    · rw [he.linked.prev_eq]
      exact hprev.mpr hc
  have hdone' : done' = done₁ ++ [vr] := by
    have heq := ht'.linked.det hset
    rw [← List.singleton_append, ← List.append_assoc] at heq
    rw [List.append_cancel_right heq, hdone]
  subst hdone hdone'
  have hnd := he.linked.nodup
  rw [List.nodup_middle, List.nodup_cons] at hnd
  have hself : (Optimizer.step s vr).block.get vr = (Optimizer.visit s vr).2 := by
    rw [step_block, get_set_self (he.linked.bound vr hvr)]
  have hother : ∀ {w}, w ∈ done₂ ++ rest →
      (Optimizer.step s vr).block.get w = (Optimizer.visit s vr).1.block.get w := fun hw =>
    step_get_of_ne fun he => hnd.1 (he ▸ hw)
  have hlift : ∀ {x}, Held (Optimizer.visit s vr).1.block done₂ x →
      Held (Optimizer.step s vr).block (done₂ ++ [vr]) x := fun hx =>
    ⟨List.mem_append_left _ hx.1, by rw [hother (List.mem_append_left _ hx.1)]; exact hx.2⟩
  have hvrHeld : computes (Optimizer.visit s vr).2.op →
      Held (Optimizer.step s vr).block (done₂ ++ [vr]) vr := fun hc =>
    ⟨by simp, by rwa [hself]⟩
  refine ⟨_, ht', ⟨?_, ?_, fun x hs ho => ?_, fun v map hmap => hlift (h₁.affines v map hmap)⟩,
    fun x hx => ?_⟩
  · refine Fed.append.mpr ⟨h₁.before.congr fun w hw => ?_, fun x hx => Or.inr ?_, trivial⟩
    · rw [hother (List.mem_append_left _ hw)]
    · rw [hself] at hx
      obtain ⟨hm, hc⟩ := h₁.args x hx
      exact ⟨hm, by rw [hother (List.mem_append_left _ hm)]; exact hc⟩
  · refine (h₁.after.2.mono fun x hx => ?_).congr fun w hw => by
      rw [hother (List.mem_append_right _ hw)]
    rcases hx with hx | ⟨rfl, hc⟩
    · exact hlift hx
    · exact hvrHeld (h₁.keeps hc)
  · rcases h₁.offers x hs ho with hx | ⟨rfl, hc⟩
    · exact hlift hx
    · exact hvrHeld hc
  · obtain ⟨hm, hcomp⟩ := hx
    have hafter : ∀ {w}, w ∈ vr :: rest →
        ((Optimizer.visit s vr).1.block.get w).op = (s.block.get w).op := fun hw =>
      op_of_bare (bare_edited he ht.linked ht.pending.deadStore_mem hw)
    rcases List.mem_append.mp hm with hm | hm
    · have hx := hlift (held_edited he ht.linked ht.pending.deadStore_computes ⟨hm, hcomp⟩)
      exact ⟨List.mem_append_left _ hx.1, hx.2⟩
    · rw [← hafter hm] at hcomp
      rcases List.mem_cons.mp hm with rfl | hm
      · have hx := hvrHeld (h₁.keeps hcomp)
        exact ⟨List.mem_append_left _ hx.1, hx.2⟩
      · exact ⟨List.mem_append_right _ hm, by rwa [hother (List.mem_append_right _ hm)]⟩

/-- **A clean walk keeps the list in SSA form**, with all the nodes that compute something. -/
theorem forwardWalk_fed {b₀ : Block} {n : Nat} (h : Threaded s done rest)
    (ht : Tracks b₀ s done rest) (hc : CleanWalk n s (rest.headD linkNone)) :
    ∃ l, (forwardWalk n s (rest.headD linkNone)).block.Linked l ∧
      Fed (forwardWalk n s (rest.headD linkNone)).block (fun _ => False) l ∧
      (∀ x, Held s.block (done ++ rest) x →
        Held (forwardWalk n s (rest.headD linkNone)).block l x) ∧
      (forwardWalk n s (rest.headD linkNone)).block.terminal = s.block.terminal := by
  have hall : Fed s.block (fun _ => False) (done ++ rest) :=
    Fed.append.mpr ⟨h.before, h.after.mono fun _ hx => Or.inr hx⟩
  induction n generalizing s done rest with
  | zero => exact ⟨_, ht.linked, hall, fun _ hx => hx, rfl⟩
  | succ n ih =>
    cases rest with
    | nil =>
      rw [List.headD_nil, forwardWalk, if_pos rfl]
      exact ⟨_, ht.linked, hall, fun _ hx => hx, rfl⟩
    | cons vr rest =>
      have hne : vr ≠ linkNone := ht.linked.ne_none (by simp)
      have hnext : (s.block.get vr).next = rest.headD linkNone := ht.linked.next_eq
      rw [List.headD_cons, CleanWalk, hnext] at hc
      obtain ⟨hclean, hrest⟩ := hc.resolve_left hne
      obtain ⟨done', ht', h', hheld⟩ := h.step ht hclean
      obtain ⟨l, hl, hfed, hheld', hterm⟩ := ih h' ht' hrest
        (Fed.append.mpr ⟨h'.before, h'.after.mono fun _ hx => Or.inr hx⟩)
      rw [List.headD_cons, forwardWalk, if_neg hne, hnext]
      exact ⟨l, hl, hfed, fun x hx => hheld' x (hheld x hx), hterm.trans (terminal_step s vr)⟩

theorem threaded_init (h : Fed b (fun _ => False) l) : Threaded (.init b) [] l where
  before := trivial
  after := h.mono fun _ hx => hx.elim
  offers x hs ho := by
    rcases ho with ⟨_, rfl⟩ | rfl | rfl | ⟨_, rfl⟩ <;> cases hs
  affines _ _ hmap := by cases hmap

end Optimizer

end Rustarmic
