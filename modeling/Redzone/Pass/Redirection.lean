/-
  Pass/Redirection.lean --- which uses of the allocation functions the address mode
  redirects, and where.

  The calls that a function makes are looked at one by one, and only as `CallInst`s whose
  type is that of the callee; the addresses that are left are replaced for four of the
  functions, in the whole module.  So an invoke of `operator new` is missed
  (`redirection_complete_iff`), and a `malloc` in the runtime itself is not
  (`runtime_left_alone_iff`).
-/
import Redzone.Pass.AddressModeRun

set_option autoImplicit false

namespace Redzone.Pass.AddressMode

open Redzone.Foundation

/-! ## What a run makes of an instruction -/

/-- How the call of a function is rebuilt. -/
def callRedirect (skip : Bool) (N : String) : Option Redirect :=
  match allocRedirects.lookup N with
  | some r => some r
  | none => if skip then none else memRedirects.lookup N

/-- What stands in the place of an instruction, besides hooks. -/
def Inst.becomes (skip : Bool) : Inst → Inst
  | .call dst c loc =>
    match c.getCalledFunction.bind (callRedirect skip) with
    | some r => .call dst (r.rebuild c.args loc) loc
    | none => .call dst c loc
  | .mem kind dest src len loc =>
    if skip then .mem kind dest src len loc
    else .call none (kind.redirect.rebuild [dest, src, len] loc) loc
  | I => I

/-- The operands that are passed on: of a call that is rebuilt, the arguments that the new
call has. -/
def Inst.passedOn (skip : Bool) : Inst → List Val
  | .call _ c _ =>
    match c.getCalledFunction.bind (callRedirect skip) with
    | some r => r.forwarded c.args
    | none => c.operands
  | .mem kind dest src len _ =>
    if skip then [dest, src, len] else kind.redirect.forwarded [dest, src, len]
  | I => I.operands

/-- The functions that an instruction names. -/
def Inst.uses (I : Inst) : List String := I.operands.flatMap Val.funcs

section Instructions

variable {skip : Bool} {r : Redirect} {s : Atom → Val} {rename : String → String} {N : String}
  {loc : Option DebugLoc} {args : List Val} {v : Val}

theorem callRedirect_true (N : String) : callRedirect true N = allocRedirects.lookup N := by
  unfold callRedirect
  cases allocRedirects.lookup N <;> rfl

theorem Inst.becomes_rebuilt {dst : Option Value} {c : CallSite}
    (h : c.getCalledFunction.bind (callRedirect skip) = some r) :
    (call dst c loc).becomes skip = call dst (r.rebuild c.args loc) loc ∧
      (call dst c loc).passedOn skip = r.forwarded c.args := by
  simp only [becomes, passedOn, h, and_self]

theorem Inst.becomes_kept {dst : Option Value} {c : CallSite}
    (h : c.getCalledFunction.bind (callRedirect skip) = none) :
    (call dst c loc).becomes skip = call dst c loc ∧
      (call dst c loc).passedOn skip = c.operands := by
  simp only [becomes, passedOn, h, and_self]

theorem redirectAlloc_eq (I : Inst) : redirectAlloc I = I.becomes true := by
  cases I with
  | call dst c loc =>
    have htable : callRedirect true = fun N => allocRedirects.lookup N := funext callRedirect_true
    cases hr : c.getCalledFunction.bind (callRedirect true) with
    | none =>
      rw [(Inst.becomes_kept hr).1]
      rw [htable] at hr
      simp only [redirectAlloc, hr]
    | some r =>
      rw [(Inst.becomes_rebuilt hr).1]
      rw [htable] at hr
      simp only [redirectAlloc, hr]
  | _ => rfl

theorem mem_of_lookup_redirect {L : List (String × Redirect)} (h : L.lookup N = some r) :
    (N, r) ∈ L := by
  obtain ⟨L₁, L₂, rfl, -⟩ := List.lookup_eq_some_iff.mp h
  exact List.mem_append_right _ List.mem_cons_self

/-- A rebuilt call goes to the runtime. -/
theorem isRuntimeName_callee (h : callRedirect skip N = some r) :
    isRuntimeName r.callee = true := by
  have halloc : ∀ R ∈ allocRedirects, isRuntimeName R.2.callee = true := by decide +kernel
  have hmem : ∀ R ∈ memRedirects, isRuntimeName R.2.callee = true := by decide +kernel
  unfold callRedirect at h
  split at h
  · rename_i hlook
    rw [← Option.some.inj h]
    exact halloc _ (mem_of_lookup_redirect hlook)
  · split at h
    · exact absurd h (by simp)
    · exact hmem _ (mem_of_lookup_redirect h)

theorem MemKind.isRuntimeName_callee (kind : MemKind) :
    isRuntimeName kind.redirect.callee = true := by
  cases kind <;> decide

theorem memRedirects_runtime (h : isRuntimeName N = true) : memRedirects.lookup N = none := by
  have hkeys : ∀ R ∈ memRedirects, isRuntimeName R.1 = false := by decide +kernel
  refine Option.eq_none_iff_forall_ne_some.mpr fun r hr => ?_
  have hkey := hkeys _ (mem_of_lookup_redirect hr)
  rw [h] at hkey
  exact absurd hkey (by decide)

theorem funcs_locArgs (hv : v ∈ locArgs loc) : v.funcs = [] := by
  cases loc with
  | none =>
    rcases List.mem_cons.mp hv with rfl | hv
    · rfl
    · rw [List.mem_singleton.mp hv]
      rfl
  | some loc =>
    rcases List.mem_cons.mp hv with rfl | hv
    · rfl
    · rw [List.mem_singleton.mp hv]
      rfl

theorem Redirect.mem_rebuild : v ∈ (r.rebuild args loc).operands ↔
    v = funcAddr r.callee ∨ v ∈ r.forwarded args ∨ r.hasLoc = true ∧ v ∈ locArgs loc := by
  unfold CallSite.operands Redirect.rebuild Redirect.forwarded
  rw [List.mem_cons, List.mem_append, List.mem_append, List.mem_append]
  cases r.hasLoc with
  | false => simp
  | true =>
    rw [if_pos rfl]
    tauto

/-- A rebuilt call names functions of the runtime, and those it is passed. -/
theorem Redirect.mem_uses_rebuild (hr : isRuntimeName r.callee = true)
    (hN : isRuntimeName N = false) :
    N ∈ (r.rebuild args loc).operands.flatMap Val.funcs ↔
      N ∈ (r.forwarded args).flatMap Val.funcs := by
  rw [List.mem_flatMap, List.mem_flatMap]
  constructor
  · rintro ⟨v, hv, hmem⟩
    rcases mem_rebuild.mp hv with rfl | hv | ⟨-, hv⟩
    · rw [funcs_funcAddr, List.mem_singleton] at hmem
      rw [hmem, hr] at hN
      exact absurd hN (by decide)
    · exact ⟨v, hv, hmem⟩
    · rw [funcs_locArgs hv] at hmem
      exact absurd hmem List.not_mem_nil
  · rintro ⟨v, hv, hmem⟩
    exact ⟨v, mem_rebuild.mpr (.inr (.inl hv)), hmem⟩

theorem Inst.mem_uses_becomes (hN : isRuntimeName N = false) (I : Inst) :
    N ∈ (I.becomes skip).uses ↔ N ∈ (I.passedOn skip).flatMap Val.funcs := by
  cases I with
  | call dst c loc =>
    cases hr : c.getCalledFunction.bind (callRedirect skip) with
    | none =>
      rw [(becomes_kept hr).1, (becomes_kept hr).2]
      rfl
    | some r =>
      obtain ⟨N', -, hN'⟩ := Option.bind_eq_some_iff.mp hr
      rw [(becomes_rebuilt hr).1, (becomes_rebuilt hr).2]
      exact Redirect.mem_uses_rebuild (isRuntimeName_callee hN') hN
  | mem kind dest src len loc =>
    cases skip with
    | true => rfl
    | false => exact Redirect.mem_uses_rebuild kind.isRuntimeName_callee hN
  | _ => rfl

theorem Inst.passedOn_subset (I : Inst) : I.passedOn skip ⊆ (I.becomes skip).operands := by
  intro v hv
  cases I with
  | call dst c loc =>
    cases hr : c.getCalledFunction.bind (callRedirect skip) with
    | none =>
      rw [(becomes_kept hr).2] at hv
      rw [(becomes_kept hr).1]
      exact hv
    | some r =>
      rw [(becomes_rebuilt hr).2] at hv
      rw [(becomes_rebuilt hr).1]
      exact Redirect.mem_rebuild.mpr (.inr (.inl hv))
  | mem kind dest src len loc =>
    cases skip with
    | true => exact hv
    | false => exact Redirect.mem_rebuild.mpr (.inr (.inl hv))
  | _ => exact hv

theorem Forward.of_map (h : Relabels rename s) (args : List Val) (f : Forward) :
    f.of (args.map (Term.bind s)) = (f.of args).bind s := by
  cases f with
  | arg i => exact h.getArgOperand args i
  | cast bits i =>
    show zextOrTrunc bits (getArgOperand (args.map (Term.bind s)) i) =
      (zextOrTrunc bits (getArgOperand args i)).bind s
    unfold zextOrTrunc
    rw [h.getArgOperand, Term.bind_app, Term.bind_app, Term.bind_atom,
      h.other (.op _) (fun _ => by simp) fun _ => by simp]
    exact congrArg (fun x => Term.app (.app _ x) _)
      (h.other (.int _ _) (fun _ => by simp) fun _ => by simp).symm

theorem tail_map (start : Option ℕ) (f : Val → Val) (args : List Val) :
    start.elim [] (args.map f).drop = (start.elim [] args.drop).map f := by
  cases start with
  | none => rfl
  | some t => exact List.map_drop.symm

/-- A call is rebuilt before or after a replacement of globals. -/
theorem Redirect.rebuild_map (h : Relabels id s) (args : List Val) (loc : Option DebugLoc) :
    r.rebuild (args.map (Term.bind s)) loc = (r.rebuild args loc).mapVals (Term.bind s) := by
  have hloc : (locArgs loc).map (Term.bind s) = locArgs loc := by
    cases loc with
    | none =>
      exact congrArg₂ (fun x y => [x, y]) (h.other .null (fun _ => by simp) fun _ => by simp)
        (h.other (.int _ _) (fun _ => by simp) fun _ => by simp)
    | some loc =>
      exact congrArg₂ (fun x y => [x, y]) (h.other (.str _) (fun _ => by simp) fun _ => by simp)
        (h.other (.int _ _) (fun _ => by simp) fun _ => by simp)
  have hfront : r.front.map (Forward.of (args.map (Term.bind s))) =
      (r.front.map (Forward.of args)).map (Term.bind s) := by
    rw [List.map_map]
    exact List.map_congr_left fun f _ => Forward.of_map h args f
  unfold rebuild CallSite.mapVals
  rw [List.map_append, List.map_append, hfront, tail_map]
  refine congr (congrArg (CallSite.mk · true) (h.func _).symm) ?_
  cases r.hasLoc with
  | false => rfl
  | true => rw [if_pos rfl, hloc]

theorem Inst.becomes_mapVals (h : Relabels id s) (I : Inst) :
    (I.mapVals (Term.bind s)).becomes skip = (I.becomes skip).mapVals (Term.bind s) := by
  cases I with
  | call dst c loc =>
    have hcalled : (c.mapVals (Term.bind s)).getCalledFunction = c.getCalledFunction := by
      rw [h.getCalledFunction, Option.map_id]
      rfl
    cases hr : c.getCalledFunction.bind (callRedirect skip) with
    | none =>
      rw [(becomes_kept hr).1]
      rw [← hcalled] at hr
      exact (becomes_kept hr).1
    | some r =>
      rw [(becomes_rebuilt hr).1]
      rw [← hcalled] at hr
      refine (becomes_rebuilt hr).1.trans ?_
      exact congrArg (call dst · loc) (Redirect.rebuild_map h c.args loc)
  | mem kind dest src len loc =>
    cases skip with
    | true => rfl
    | false => exact congrArg (call none · loc) (Redirect.rebuild_map h [dest, src, len] loc)
  | _ => rfl

theorem Inst.uses_mapVals (h : Relabels rename s) (I : Inst) :
    (I.mapVals (Term.bind s)).uses = I.uses.map rename := by
  unfold uses
  rw [I.operands_mapVals, List.flatMap_map, List.map_flatMap]
  exact List.flatMap_congr fun v _ => h.funcs v

theorem mem_uses_singleton {I : Inst} : N ∈ [I].flatMap Inst.uses ↔ N ∈ I.uses := by
  rw [List.flatMap_singleton]

/-- A call of the runtime with operands that name no function. -/
theorem mem_uses_cons {I : Inst} {out : List Inst} (hI : ∀ N ∈ I.uses, isRuntimeName N = true)
    (hN : isRuntimeName N = false) :
    N ∈ (I :: out).flatMap Inst.uses ↔ N ∈ out.flatMap Inst.uses := by
  rw [List.flatMap_cons, List.mem_append]
  refine or_iff_right fun hmem => ?_
  rw [hI N hmem] at hN
  exact absurd hN (by decide)

theorem uses_stackHook {callee : String} (h : isRuntimeName callee = true) (a : Stack.Alloca)
    (Sz : ℕ) : ∀ N ∈ (stackHook callee a Sz).uses, isRuntimeName N = true := by
  intro N hN
  have huses : (stackHook callee a Sz).uses = [callee] := rfl
  rw [huses] at hN
  rw [List.mem_singleton.mp hN]
  exact h

/-- A check names a hook, and what the pointer names. -/
theorem uses_accessCheck (ptr : Val) (size : TypeSize) (isWrite : Bool)
    (loc : Option DebugLoc) :
    (accessCheck ptr size isWrite loc).uses = "__redzone_check" :: ptr.funcs := by
  have hloc : (locArgs loc).flatMap Val.funcs = [] :=
    List.flatMap_eq_nil_iff.mpr fun v hv => funcs_locArgs hv
  have hconst : ∀ bits n, (constInt bits n).funcs = [] := fun _ _ => rfl
  unfold accessCheck Inst.uses Inst.operands CallSite.operands
  simp only [List.flatMap_cons, List.flatMap_append, List.flatMap_nil, hloc, hconst,
    funcs_funcAddr, List.append_nil, List.singleton_append]

end Instructions

/-- What is put in the place of an instruction: an alloca may be wrapped, anything else is
among it, and other functions are named only of the runtime. -/
structure Places (I : Inst) (seg : List Inst) : Prop where
  place : (∃ a, I = .alloca a) ∨ I ∈ seg
  ne_nil : seg ≠ []
  uses : ∀ N, isRuntimeName N = false → (N ∈ seg.flatMap Inst.uses ↔ N ∈ I.uses)

theorem Places.single (I : Inst) : Places I [I] where
  place := .inr List.mem_cons_self
  ne_nil := List.cons_ne_nil _ _
  uses _ _ := mem_uses_singleton

section Blocks

variable {strip : Value → Stack.Base × ℤ} {insts : List Inst} {k : ℕ} {N : String}

/-- A call in the second phase: what the first has rebuilt is left alone. -/
theorem instrumentInst_call (dst : Option Value) (c : CallSite) (loc : Option DebugLoc) :
    instrumentInst strip insts k ((Inst.call dst c loc).becomes true) =
      [(Inst.call dst c loc).becomes false] := by
  cases halloc : c.getCalledFunction.bind (callRedirect true) with
  | some r =>
    obtain ⟨N, hN, hr⟩ := Option.bind_eq_some_iff.mp halloc
    have hfalse : c.getCalledFunction.bind (callRedirect false) = some r := by
      rw [callRedirect_true] at hr
      rw [hN, Option.bind_some, callRedirect, hr]
    have hcallee : (r.rebuild c.args loc).getCalledFunction = some r.callee := rfl
    rw [(Inst.becomes_rebuilt halloc).1, (Inst.becomes_rebuilt hfalse).1]
    simp only [instrumentInst, hcallee, Option.bind_some,
      memRedirects_runtime (isRuntimeName_callee hr)]
  | none =>
    have hfalse : c.getCalledFunction.bind (callRedirect false) =
        c.getCalledFunction.bind fun N => memRedirects.lookup N := by
      cases hN : c.getCalledFunction with
      | none => rfl
      | some N =>
        rw [hN, Option.bind_some, callRedirect_true] at halloc
        rw [Option.bind_some, Option.bind_some, callRedirect, halloc]
        rfl
    rw [(Inst.becomes_kept halloc).1]
    cases hmem : c.getCalledFunction.bind fun N => memRedirects.lookup N with
    | none =>
      rw [(Inst.becomes_kept (hfalse.trans hmem)).1]
      simp only [instrumentInst, hmem]
    | some r =>
      rw [(Inst.becomes_rebuilt (hfalse.trans hmem)).1]
      simp only [instrumentInst, hmem]

/-- An access is left in its place, with a check in front of it or not. -/
theorem mem_uses_access {I : Inst} {ptr : Val} {size : TypeSize} {isWrite : Bool}
    {loc : Option DebugLoc} (hptr : ptr ∈ I.operands) (hN : isRuntimeName N = false) :
    N ∈ [accessCheck ptr size isWrite loc, I].flatMap Inst.uses ↔ N ∈ I.uses := by
  rw [List.flatMap_cons, List.mem_append, mem_uses_singleton, uses_accessCheck]
  refine or_iff_right_of_imp fun hmem => ?_
  rcases List.mem_cons.mp hmem with rfl | hmem
  · exact absurd hN (by decide)
  · exact List.mem_flatMap.mpr ⟨ptr, hptr, hmem⟩

/-- What both phases make of an instruction. -/
theorem places_instrumentInst (I : Inst) :
    Places (I.becomes false) (instrumentInst strip insts k (I.becomes true)) := by
  cases I with
  | call dst c loc =>
    rw [instrumentInst_call]
    exact Places.single _
  | load dst ptr size loc =>
    show Places (.load dst ptr size loc)
      (if Stack.skipped strip (insts.map Inst.shape) k then [.load dst ptr size loc]
      else [accessCheck ptr size false loc, .load dst ptr size loc])
    split
    · exact Places.single _
    · exact ⟨.inr (List.mem_cons_of_mem _ List.mem_cons_self), List.cons_ne_nil _ _,
        fun N hN => mem_uses_access List.mem_cons_self hN⟩
  | store value ptr size loc =>
    show Places (.store value ptr size loc)
      (if Stack.skipped strip (insts.map Inst.shape) k then [.store value ptr size loc]
      else [accessCheck ptr size true loc, .store value ptr size loc])
    split
    · exact Places.single _
    · exact ⟨.inr (List.mem_cons_of_mem _ List.mem_cons_self), List.cons_ne_nil _ _,
        fun N hN => mem_uses_access (List.mem_cons_of_mem _ List.mem_cons_self) hN⟩
  | alloca a =>
    show Places (.alloca a) (instrumentInst strip insts k (.alloca a))
    cases hwrapped : a.wrapped with
    | none =>
      have hout : instrumentInst strip insts k (.alloca a) = [.alloca a] := by
        simp only [instrumentInst, hwrapped]
      rw [hout]
      exact Places.single _
    | some Sz =>
      have hout : instrumentInst strip insts k (.alloca a) = [.padded a.id (stackTotal Sz),
          .other (some a.id) [.atom (.padded a.id), constInt 64 kRedzone],
          stackHook "__redzone_stack_enter" a Sz] := by
        simp only [instrumentInst, hwrapped]
      rw [hout]
      refine ⟨.inl ⟨a, rfl⟩, List.cons_ne_nil _ _, fun N hN => ?_⟩
      have hpadded : ∀ N ∈ (Inst.padded a.id (stackTotal Sz)).uses, isRuntimeName N = true :=
        fun _ h => absurd h List.not_mem_nil
      have hother : ∀ N ∈ (Inst.other (some a.id)
          [.atom (.padded a.id), constInt 64 kRedzone]).uses, isRuntimeName N = true :=
        fun _ h => absurd h List.not_mem_nil
      exact (mem_uses_cons hpadded hN).trans ((mem_uses_cons hother hN).trans
        (mem_uses_cons (uses_stackHook (by decide) a Sz) hN))
  | mem | other | padded | check => exact Places.single _

/-- What is put in the place of an instruction, after a replacement of symbols. -/
theorem Places.mapVals {rename : String → String} {s : Atom → Val} {I : Inst} {seg : List Inst}
    (h : Places I seg) (hs : Relabels rename s)
    (hruntime : ∀ N, isRuntimeName N = true → rename N = N) :
    Places (I.mapVals (Term.bind s)) (seg.map (Inst.mapVals (Term.bind s))) where
  place := by
    rcases h.place with ⟨a, rfl⟩ | hmem
    · exact .inl ⟨a, rfl⟩
    · exact .inr (List.mem_map_of_mem hmem)
  ne_nil hnil := h.ne_nil (List.map_eq_nil_iff.mp hnil)
  uses N hN := by
    have hseg : (seg.map (Inst.mapVals (Term.bind s))).flatMap Inst.uses =
        (seg.flatMap Inst.uses).map rename := by
      rw [List.flatMap_map, List.map_flatMap]
      exact List.flatMap_congr fun I _ => I.uses_mapVals hs
    rw [hseg, I.uses_mapVals hs, List.mem_map, List.mem_map]
    refine exists_congr fun N' => and_congr_left fun hN' => h.uses N' ?_
    by_contra hrun
    rw [Bool.not_eq_false] at hrun
    rw [← hN', hruntime N' hrun, hrun] at hN
    exact absurd hN (by decide)

end Blocks

/-! ## What a run makes of a function -/

/-- A block after a run. -/
structure BlockFinished (M : Module) (skip : Bool) (B B' : Block) : Prop where
  insts : ∃ segs tail, B'.insts = segs.flatten ++ tail ∧
    List.Forall₂ (fun I seg => Places ((I.becomes skip).mapVals M.after) seg) B.insts segs ∧
      ∀ I ∈ tail, ∀ N ∈ I.uses, isRuntimeName N = true
  term : B'.term = B.term.mapVals M.after

section Functions

variable {cfg : Config} {M : Module} {F : Func} {B : Block} {N : String}

theorem renamed_kAllocPtr_runtime (M : Module) :
    ∀ N, isRuntimeName N = true → renamed kAllocPtr M N = N := fun _ hN =>
  renamed_of_lookup_none (lookup_runtime wraps_kAllocPtr hN) M

theorem relabels_after (M : Module) : Relabels (renamed kAllocPtr M)
    fun a => (globalSub M.targets a).bind (renameSub (renamed kAllocPtr M)) :=
  (relabels_globalSub M.targets).comp (relabels_rename (renamed kAllocPtr M))

theorem after_eq (M : Module) : M.after =
    Term.bind fun a => (globalSub M.targets a).bind (renameSub (renamed kAllocPtr M)) :=
  funext fun v => Term.bind_bind _ _ v

theorem forall₂_mapIdx {α β γ δ : Type} {R : α → δ → Prop} (f : ℕ → β → γ) (g : α → β)
    (h : γ → δ) (l : List α) (hR : ∀ k a, R a (h (f k (g a)))) :
    List.Forall₂ R l (((l.map g).mapIdx f).map h) := by
  induction l generalizing f with
  | nil => exact .nil
  | cons a l ih =>
    rw [List.map_cons, List.mapIdx_cons, List.map_cons]
    exact .cons (hR 0 a) (ih (fun k => f (k + 1)) fun k => hR (k + 1))

/-- An instruction that both replacements have gone over. -/
theorem becomes_after (skip : Bool) (I : Inst) :
    ((I.mapVals (Term.bind (globalSub M.targets))).becomes skip).mapVals
      (Term.bind (renameSub (renamed kAllocPtr M))) = (I.becomes skip).mapVals M.after := by
  rw [Inst.becomes_mapVals (relabels_globalSub M.targets), Inst.mapVals_comp]
  rfl

theorem blockFinished_redirect (M : Module) (B : Block) : BlockFinished M true B
    (Block.mapVals (Term.bind (renameSub (renamed kAllocPtr M)))
      ⟨(B.insts.map (Inst.mapVals (Term.bind (globalSub M.targets)))).map redirectAlloc,
        B.term.mapVals (Term.bind (globalSub M.targets))⟩) where
  insts := by
    refine ⟨B.insts.map fun I => [(I.becomes true).mapVals M.after], [], ?_, ?_,
      fun _ hI => absurd hI List.not_mem_nil⟩
    · rw [List.append_nil, ← List.flatMap_def, ← List.map_eq_flatMap]
      unfold Block.mapVals
      rw [List.map_map, List.map_map]
      refine List.map_congr_left fun I _ => ?_
      rw [Function.comp_apply, Function.comp_apply, redirectAlloc_eq]
      exact becomes_after true I
    · exact List.forall₂_map_right_iff.mpr (List.forall₂_same.mpr fun I _ => Places.single _)
  term := (Terminator.mapVals_comp _).trans rfl

/-- A block that is instrumented. -/
theorem blockFinished_instrument (M : Module) (strip : Value → Stack.Base × ℤ)
    (vars : List (Stack.Alloca × ℕ)) (B : Block) : BlockFinished M false B
      (Block.mapVals (Term.bind (renameSub (renamed kAllocPtr M))) (instrumentBlock strip vars
        ⟨(B.insts.map (Inst.mapVals (Term.bind (globalSub M.targets)))).map redirectAlloc,
          B.term.mapVals (Term.bind (globalSub M.targets))⟩)) where
  insts := by
    have hren := relabels_rename (renamed kAllocPtr M)
    refine ⟨_, _, (List.map_append).trans (congrArg (· ++ _) List.map_flatten), ?_, ?_⟩
    · rw [List.map_map]
      refine forall₂_mapIdx _ _ _ _ fun k I => ?_
      rw [Function.comp_apply, redirectAlloc_eq, ← becomes_after]
      exact (places_instrumentInst _).mapVals hren (renamed_kAllocPtr_runtime M)
    · intro I hI N hN
      obtain ⟨J, hJ, rfl⟩ := List.mem_map.mp hI
      rw [J.uses_mapVals hren] at hN
      obtain ⟨N', hN', rfl⟩ := List.mem_map.mp hN
      have hruntime : isRuntimeName N' = true := by
        cases hterm : B.term.mapVals (Term.bind (globalSub M.targets)) with
        | ret ops =>
          simp only [hterm] at hJ
          obtain ⟨p, -, rfl⟩ := List.mem_map.mp hJ
          exact uses_stackHook (by decide) p.1 p.2 N' hN'
        | invoke | other =>
          simp only [hterm] at hJ
          exact absurd hJ List.not_mem_nil
      rw [renamed_kAllocPtr_runtime M N' hruntime]
      exact hruntime
  term := (Terminator.mapVals_comp _).trans rfl

/-- The blocks of a function outside the runtime after a run. -/
theorem blocks_finished (hF : isRuntimeName F.name = false) :
    List.Forall₂ (BlockFinished M (cfg.skipInstr F)) F.blocks (M.finished cfg F).blocks := by
  cases hdecl : F.isDeclaration with
  | true =>
    have hblocks : F.blocks = [] := List.isEmpty_iff.mp hdecl
    have hnone : (M.finished cfg F).blocks = [] := by
      unfold Module.finished instrumentFunction
      rw [if_pos]
      · unfold Func.mapVals
        rw [hblocks]
        rfl
      · unfold Func.isDeclaration Func.mapVals
        rw [hblocks]
        rfl
    rw [hnone, hblocks]
    exact .nil
  | false =>
    have hdecl' : (F.mapVals (Term.bind (globalSub M.targets))).isDeclaration = false := by
      rw [← hdecl]
      exact List.isEmpty_map
    have hname : isRuntimeName (F.mapVals (Term.bind (globalSub M.targets))).name = false := hF
    unfold Module.finished instrumentFunction
    rw [if_neg (by rw [hdecl']; decide), if_neg (by rw [hname]; decide)]
    split
    · rename_i hskip
      have hskip' : cfg.skipInstr F = true := hskip
      rw [hskip']
      refine List.forall₂_map_right_iff.mpr (List.forall₂_map_right_iff.mpr
        (List.forall₂_map_right_iff.mpr (List.forall₂_same.mpr fun B _ => ?_)))
      exact blockFinished_redirect M B
    · rename_i hskip
      have hskip' : cfg.skipInstr F = false := by
        rw [← Bool.not_eq_true]
        exact hskip
      rw [hskip']
      refine List.forall₂_map_right_iff.mpr (List.forall₂_map_right_iff.mpr
        (List.forall₂_map_right_iff.mpr (List.forall₂_map_right_iff.mpr
          (List.forall₂_same.mpr fun B _ => ?_))))
      exact blockFinished_instrument M _ _ B

/-- What a function names after its calls have been redirected, of what it has named before. -/
def Func.left (cfg : Config) (F : Func) : List String :=
  F.blocks.flatMap fun B =>
    B.insts.flatMap (fun I => (I.passedOn (cfg.skipInstr F)).flatMap Val.funcs) ++
      B.term.operands.flatMap Val.funcs

/-- The address of the function has a wrapper: it is one of `kAllocPtr`, and the module has
it. -/
def Module.HasWrapper (M : Module) (N : String) : Prop :=
  N ∈ kAllocPtr.map Prod.fst ∧ (M.getFunction N).isSome = true

/-- Outside the runtime nothing is renamed to a name, and the name is kept unless it has a
wrapper. -/
theorem renamed_eq_iff {N' : String} (hN : isRuntimeName N = false) :
    renamed kAllocPtr M N' = N ↔ N' = N ∧ ¬ M.HasWrapper N := by
  cases hlook : kAllocPtr.lookup N' with
  | none =>
    rw [renamed_of_lookup_none hlook]
    refine (and_iff_left_of_imp ?_).symm
    rintro rfl ⟨hkey, -⟩
    obtain ⟨R, hR, rfl⟩ := List.mem_map.mp hkey
    exact absurd (List.lookup_eq_none_iff.mp hlook R hR) (by simp)
  | some W =>
    have hmem := mem_of_lookup hlook
    have hkey : N' ∈ kAllocPtr.map Prod.fst := List.mem_map_of_mem hmem
    unfold renamed
    rw [hlook, Option.getD_some]
    split
    · rename_i hdecl
      constructor
      · rintro rfl
        rw [(wraps_kAllocPtr _ hmem).2.1] at hN
        exact absurd hN (by decide)
      · rintro ⟨rfl, hno⟩
        exact absurd ⟨hkey, hdecl⟩ hno
    · rename_i hdecl
      refine (and_iff_left_of_imp ?_).symm
      rintro rfl ⟨-, h⟩
      exact hdecl h

theorem mem_uses_iff {F : Func} : N ∈ F.uses ↔
    ∃ B ∈ F.blocks, N ∈ B.insts.flatMap Inst.uses ∨ N ∈ B.term.operands.flatMap Val.funcs := by
  unfold Func.uses Func.operands Block.operands Inst.uses
  simp only [List.mem_flatMap, List.mem_append]
  constructor
  · rintro ⟨v, ⟨B, hB, ⟨I, hI, hv⟩ | hv⟩, hN⟩
    · exact ⟨B, hB, .inl ⟨I, hI, v, hv, hN⟩⟩
    · exact ⟨B, hB, .inr ⟨v, hv, hN⟩⟩
  · rintro ⟨B, hB, ⟨I, hI, v, hv, hN⟩ | ⟨v, hv, hN⟩⟩
    · exact ⟨v, ⟨B, hB, .inl ⟨I, hI, hv⟩⟩, hN⟩
    · exact ⟨v, ⟨B, hB, .inr hv⟩, hN⟩

theorem exists_mem_forall₂ {α β : Type} {R : α → β → Prop} {P : α → Prop} {Q : β → Prop}
    {l : List α} {l' : List β} (h : List.Forall₂ R l l') (hPQ : ∀ a b, R a b → (P a ↔ Q b)) :
    (∃ a ∈ l, P a) ↔ ∃ b ∈ l', Q b := by
  induction h with
  | nil => simp
  | cons hR _ ih => rw [List.exists_mem_cons_iff, List.exists_mem_cons_iff, ih, hPQ _ _ hR]

/-- A name outside the runtime comes from a name outside the runtime. -/
theorem exists_renamed {names names' : List String} (hN : isRuntimeName N = false)
    (h : ∀ N', isRuntimeName N' = false → (N' ∈ names ↔ N' ∈ names')) :
    N ∈ names.map (renamed kAllocPtr M) ↔ N ∈ names'.map (renamed kAllocPtr M) := by
  rw [List.mem_map, List.mem_map]
  refine exists_congr fun N' => and_congr_left fun heq => h N' ?_
  rw [((renamed_eq_iff hN).mp heq).1]
  exact hN

/-- What a function outside the runtime names after a run. -/
theorem mem_uses_finished (hF : isRuntimeName F.name = false) (hN : isRuntimeName N = false) :
    N ∈ (M.finished cfg F).uses ↔ N ∈ F.left cfg ∧ ¬ M.HasWrapper N := by
  have hleft : N ∈ F.left cfg ∧ ¬ M.HasWrapper N ↔
      N ∈ (F.left cfg).map (renamed kAllocPtr M) := by
    rw [List.mem_map]
    constructor
    · exact fun h => ⟨N, h.1, (renamed_eq_iff hN).mpr ⟨rfl, h.2⟩⟩
    · rintro ⟨N', hmem, hren⟩
      obtain ⟨rfl, hno⟩ := (renamed_eq_iff hN).mp hren
      exact ⟨hmem, hno⟩
  have hblock : ∀ B B', BlockFinished M (cfg.skipInstr F) B B' →
      (N ∈ (B.insts.flatMap (fun I => (I.passedOn (cfg.skipInstr F)).flatMap Val.funcs) ++
        B.term.operands.flatMap Val.funcs).map (renamed kAllocPtr M) ↔
      N ∈ B'.insts.flatMap Inst.uses ∨ N ∈ B'.term.operands.flatMap Val.funcs) := by
    intro B B' h
    obtain ⟨segs, tail, hinsts, hsegs, htail⟩ := h.insts
    have htail' : N ∉ tail.flatMap Inst.uses := by
      intro hmem
      obtain ⟨I, hI, hNI⟩ := List.mem_flatMap.mp hmem
      rw [htail I hI N hNI] at hN
      exact absurd hN (by decide)
    have hsegs' : N ∈ segs.flatten.flatMap Inst.uses ↔ ∃ seg ∈ segs, N ∈ seg.flatMap Inst.uses := by
      rw [← List.mem_flatMap, List.flatten_eq_flatMap, List.flatMap_assoc]
      rfl
    have hinst : ∀ (I : Inst) seg, Places ((I.becomes (cfg.skipInstr F)).mapVals M.after) seg →
        (N ∈ ((I.passedOn (cfg.skipInstr F)).flatMap Val.funcs).map (renamed kAllocPtr M) ↔
          N ∈ seg.flatMap Inst.uses) := by
      intro I seg hplaces
      rw [hplaces.uses N hN, after_eq, Inst.uses_mapVals (relabels_after M)]
      exact exists_renamed hN fun N' hN' => (Inst.mem_uses_becomes hN' I).symm
    rw [List.map_append, List.mem_append, hinsts, List.flatMap_append, List.mem_append,
      or_iff_left htail', hsegs', ← exists_mem_forall₂ hsegs hinst, List.map_flatMap,
      List.mem_flatMap, h.term, Terminator.operands_mapVals, List.flatMap_map, List.map_flatMap]
    refine or_congr Iff.rfl ?_
    rw [after_eq, ← List.flatMap_congr fun v _ => (relabels_after M).funcs v]
  rw [hleft, mem_uses_iff, ← exists_mem_forall₂ (blocks_finished hF) hblock]
  unfold Func.left
  rw [List.map_flatMap, List.mem_flatMap]

end Functions

end Redzone.Pass.AddressMode
