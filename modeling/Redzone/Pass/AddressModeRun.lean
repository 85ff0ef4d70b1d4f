/-
  Pass/AddressModeRun.lean --- what a run of the address mode does to a function.

  Each phase maps the functions there are and puts new ones behind them (`Grows`).  The
  phases over the whole module replace symbols in every operand (`Relabels`): of globals,
  which brings no function in, and of functions, which renames them.  So a function of the
  module ends up with its globals replaced, instrumented, and with the allocation
  functions that are left renamed (`run_functions`).
-/
import Redzone.Pass.AddressMode

set_option autoImplicit false

namespace Redzone.Pass.AddressMode

open Redzone.Foundation

/-! ## Replacing symbols -/

/-- A replacement of symbols that renames functions and brings none in for anything else. -/
structure Relabels (r : String → String) (s : Atom → Val) : Prop where
  func : ∀ N, s (.func N) = funcAddr (r N)
  var : ∀ g, (s (.var g)).funcs = []
  other : ∀ a, (∀ N, a ≠ .func N) → (∀ g, a ≠ .var g) → s a = .atom a

section Relabels

variable {r r' : String → String} {s s' : Atom → Val} {v : Val} {N W g : String}

theorem funcs_app (f x : Val) : Val.funcs (.app f x) = f.funcs ++ x.funcs :=
  List.filterMap_append

theorem funcs_funcAddr : (funcAddr N).funcs = [N] := rfl

theorem Relabels.funcs_atom (h : Relabels r s) (a : Atom) :
    (s a).funcs = (Val.funcs (.atom a)).map r := by
  cases a with
  | func N =>
    rw [h.func]
    rfl
  | var g => exact h.var g
  | _ =>
    rw [h.other _ (fun _ => by simp) fun _ => by simp]
    rfl

/-- The functions that an operand names are renamed. -/
theorem Relabels.funcs (h : Relabels r s) (v : Val) : Val.funcs (v.bind s) = v.funcs.map r := by
  induction v with
  | atom a => exact h.funcs_atom a
  | app f x ihf ihx => rw [Term.bind_app, funcs_app, funcs_app, ihf, ihx, List.map_append]

/-- One replacement after the other. -/
theorem Relabels.comp (h : Relabels r s) (h' : Relabels r' s') :
    Relabels (r' ∘ r) fun a => (s a).bind s' where
  func N := by rw [h.func]; exact h'.func (r N)
  var g := by rw [h'.funcs, h.var, List.map_nil]
  other a hfunc hvar := by rw [h.other a hfunc hvar]; exact h'.other a hfunc hvar

theorem relabels_id : Relabels id Term.atom where
  func _ := rfl
  var _ := rfl
  other _ _ _ := rfl

/-- Replacing a global by an address in which there is no function. -/
theorem relabels_var {new : Val} (hnew : new.funcs = []) :
    Relabels id fun a => if a = .var g then new else .atom a where
  func N := rfl
  var g' := by
    split
    · exact hnew
    · rfl
  other a _ hvar := if_neg (hvar g)

/-- Functions renamed, and nothing else. -/
def renameSub (r : String → String) : Atom → Val
  | .func N => funcAddr (r N)
  | a => .atom a

theorem relabels_rename (r : String → String) : Relabels r (renameSub r) where
  func _ := rfl
  var _ := rfl
  other a hfunc _ := by
    cases a with
    | func N => exact absurd rfl (hfunc N)
    | _ => rfl

theorem renameSub_comp (v : Val) :
    (v.bind (renameSub r)).bind (renameSub r') = v.bind (renameSub (r' ∘ r)) := by
  rw [Term.bind_bind]
  refine congrArg (Term.bind · v) (funext fun a => ?_)
  cases a <;> rfl

/-- Replacing a function by another one. -/
theorem replace_func (v : Val) :
    Val.replace (.func N) (funcAddr W) v =
      v.bind (renameSub fun N' => if N' = N then W else N') := by
  refine congrArg (Term.bind · v) (funext fun a => ?_)
  cases a with
  | func N' =>
    rw [renameSub]
    by_cases h : N' = N
    · rw [if_pos h, if_pos (congrArg Atom.func h)]
    · rw [if_neg h, if_neg fun heq => h (Atom.func.inj heq)]
      rfl
  | _ => rfl

/-- Replacing a function that an operand does not name. -/
theorem replace_func_of_not_mem {new : Val} (h : N ∉ v.funcs) :
    Val.replace (.func N) new v = v := by
  refine Term.bind_eq_self fun a ha => if_neg ?_
  rintro rfl
  exact h (List.mem_filterMap.mpr ⟨_, ha, rfl⟩)

theorem Relabels.getArgOperand (h : Relabels r s) (args : List Val) (i : ℕ) :
    getArgOperand (args.map (Term.bind s)) i = (getArgOperand args i).bind s := by
  unfold AddressMode.getArgOperand
  rw [List.getD_eq_getElem?_getD, List.getD_eq_getElem?_getD, List.getElem?_map]
  cases args[i]? with
  | none => exact (h.other .poison (fun _ => by simp) fun _ => by simp).symm
  | some v => rfl

/-- What is the address of a function has no other function in it. -/
theorem func?_eq_some_iff : v.func? = some N ↔ v = funcAddr N := by
  constructor
  · intro h
    cases v with
    | app f x => exact absurd h (by simp [Val.func?])
    | atom a =>
      cases a with
      | func N' =>
        rw [Option.some.inj h]
        rfl
      | _ => exact absurd h (by simp [Val.func?, Atom.func?])
  · rintro rfl
    rfl

theorem Relabels.func? (h : Relabels r s) (v : Val) :
    Val.func? (v.bind s) = v.func?.map r := by
  cases v with
  | app f x => rfl
  | atom a =>
    rw [Term.bind_atom]
    cases a with
    | func N =>
      rw [h.func]
      rfl
    | var g =>
      refine Option.eq_none_iff_forall_ne_some.mpr fun N hN => ?_
      have hfuncs := h.var g
      rw [func?_eq_some_iff.mp hN] at hfuncs
      exact absurd hfuncs (List.cons_ne_nil _ _)
    | _ =>
      rw [h.other _ (fun _ => by simp) fun _ => by simp]
      rfl

theorem Relabels.directCallee (h : Relabels r s) (c : CallSite) :
    (c.mapVals (Term.bind s)).directCallee = c.directCallee.map r := h.func? c.callee

theorem Relabels.getCalledFunction (h : Relabels r s) (c : CallSite) :
    (c.mapVals (Term.bind s)).getCalledFunction = c.getCalledFunction.map r := by
  unfold CallSite.getCalledFunction
  rw [h.directCallee]
  show (if c.typeMatches then _ else _) = _
  split
  · rfl
  · rfl

end Relabels

/-! ## Phases -/

/-- What the pass inserts into functions: checks, and the hooks of the stack. -/
def hookNames : List String :=
  ["__redzone_check", "__redzone_stack_enter", "__redzone_stack_leave"]

/-- The hook that an instruction calls. -/
def Inst.hook : Inst → Option String
  | .check c | .call _ c _ => c.directCallee.filter hookNames.contains
  | _ => none

def Func.hooks (F : Func) : List String := F.blocks.flatMap fun B => B.insts.filterMap Inst.hook

/-- A function as the pass adds it: it is one of the runtime, names none but such functions
and calls no hook. -/
structure Quiet (F : Func) : Prop where
  name : isRuntimeName F.name = true
  hooks : F.hooks = []
  uses : ∀ N ∈ F.uses, isRuntimeName N = true

/-- A phase: it maps the functions there are, keeps their names, and puts new ones behind
them. -/
structure Grows (s : Func → Func) (M M' : Module) : Prop where
  functions : ∃ new, M'.functions = M.functions.map s ++ new ∧ ∀ F ∈ new, Quiet F
  name : ∀ F, (s F).name = F.name
  quiet : ∀ F, Quiet F → Quiet (s F)

section Phases

variable {r : String → String} {s : Atom → Val} {t t' : Func → Func} {M M' M'' : Module}
  {F : Func} {N : String}

theorem Grows.refl (M : Module) : Grows id M M where
  functions := ⟨[], by rw [List.map_id, List.append_nil], fun _ hF => absurd hF List.not_mem_nil⟩
  name _ := rfl
  quiet _ h := h

/-- One phase after the other. -/
theorem Grows.trans (h : Grows t M M') (h' : Grows t' M' M'') : Grows (t' ∘ t) M M'' where
  functions := by
    obtain ⟨new, hM', hnew⟩ := h.functions
    obtain ⟨new', hM'', hnew'⟩ := h'.functions
    refine ⟨new.map t' ++ new', ?_, fun F hF => ?_⟩
    · rw [hM'', hM', List.map_append, List.map_map, List.append_assoc]
    · rcases List.mem_append.mp hF with hF | hF
      · obtain ⟨F', hF', rfl⟩ := List.mem_map.mp hF
        exact h'.quiet F' (hnew F' hF')
      · exact hnew' F hF
  name F := (h'.name (t F)).trans (h.name F)
  quiet F hF := h'.quiet _ (h.quiet F hF)

/-- A phase declares no function but those of the runtime. -/
theorem Grows.getFunction (h : Grows t M M') (hN : isRuntimeName N = false) :
    (M'.getFunction N).isSome = (M.getFunction N).isSome := by
  obtain ⟨new, hM', hnew⟩ := h.functions
  have hnone : new.any (fun F => F.name == N) = false := by
    refine List.any_eq_false.mpr fun F hF hname => ?_
    have hruntime := (hnew F hF).name
    rw [eq_of_beq hname, hN] at hruntime
    exact Bool.false_ne_true hruntime
  have hsame : (fun F => (t F).name == N) = fun F => F.name == N :=
    funext fun F => by rw [h.name F]
  unfold Module.getFunction
  rw [List.isSome_find?, List.isSome_find?, hM', List.any_append, List.any_map, hnone,
    Bool.or_false]
  exact congrArg (List.any M.functions) hsame

theorem func_uses_mapVals (h : Relabels r s) (F : Func) :
    (F.mapVals (Term.bind s)).uses = F.uses.map r := by
  unfold Func.uses
  rw [F.operands_mapVals, List.flatMap_map, List.map_flatMap]
  exact List.flatMap_congr fun v _ => h.funcs v

/-- A renaming that moves no hook, and nothing to a hook. -/
def KeepsHooks (r : String → String) : Prop :=
  ∀ N, r N = N ∨ hookNames.contains N = false ∧ hookNames.contains (r N) = false

theorem hook_mapVals (h : Relabels r s) (hr : KeepsHooks r) (I : Inst) :
    (I.mapVals (Term.bind s)).hook = I.hook := by
  have hsite : ∀ c : CallSite, (c.mapVals (Term.bind s)).directCallee.filter hookNames.contains =
      c.directCallee.filter hookNames.contains := by
    intro c
    rw [h.directCallee]
    cases c.directCallee with
    | none => rfl
    | some N =>
      rw [Option.map_some]
      rcases hr N with hsame | ⟨hN, hrN⟩
      · rw [hsame]
      · rw [Option.filter_some, Option.filter_some, hN, hrN]
        rfl
  cases I with
  | call dst c loc => exact hsite c
  | check c => exact hsite c
  | _ => rfl

theorem hooks_mapVals (h : Relabels r s) (hr : KeepsHooks r) (F : Func) :
    (F.mapVals (Term.bind s)).hooks = F.hooks := by
  unfold Func.hooks Func.mapVals Block.mapVals
  rw [List.flatMap_map]
  refine List.flatMap_congr fun B _ => ?_
  rw [List.filterMap_map]
  exact List.filterMap_congr fun I _ => hook_mapVals h hr I

/-- A replacement of symbols is a phase, if it leaves the runtime's functions alone. -/
theorem grows_mapVals (h : Relabels r s) (hr : KeepsHooks r)
    (hruntime : ∀ N, isRuntimeName N = true → r N = N) (M : Module) :
    Grows (Func.mapVals (Term.bind s)) M (M.mapVals (Term.bind s)) where
  functions := ⟨[], (List.append_nil _).symm, fun _ hF => absurd hF List.not_mem_nil⟩
  name _ := rfl
  quiet F hF := by
    refine ⟨hF.name, (hooks_mapVals h hr F).trans hF.hooks, fun N hN => ?_⟩
    rw [func_uses_mapVals h] at hN
    obtain ⟨N', hN', rfl⟩ := List.mem_map.mp hN
    rw [hruntime N' (hF.uses N' hN')]
    exact hF.uses N' hN'

theorem keepsHooks_id : KeepsHooks id := fun _ => .inl rfl

/-- The names of the runtime are declared. -/
theorem grows_getOrInsertFunction (hN : isRuntimeName N = true) (M : Module) :
    Grows id M (M.getOrInsertFunction N) := by
  unfold Module.getOrInsertFunction
  split
  · exact Grows.refl M
  · refine ⟨⟨_, by rw [List.map_id], fun F hF => ?_⟩, fun _ => rfl, fun _ h => h⟩
    obtain rfl := List.mem_singleton.mp hF
    exact ⟨hN, rfl, fun _ hN => absurd hN List.not_mem_nil⟩

theorem grows_declareRuntime (M : Module) : Grows id M (declareRuntime M) := by
  have hfold : ∀ (names : List String), (∀ N ∈ names, isRuntimeName N = true) → ∀ M : Module,
      Grows id M (names.foldl Module.getOrInsertFunction M) := by
    intro names
    induction names with
    | nil => exact fun _ M => Grows.refl M
    | cons N names ih =>
      intro h M
      exact (grows_getOrInsertFunction (h N List.mem_cons_self) M).trans
        (ih (fun N hN => h N (List.mem_cons_of_mem _ hN)) _)
  have hglobal : ∀ M : Module, Grows id M (M.getOrInsertGlobal "__redzone_shadow_base") := by
    intro M
    unfold Module.getOrInsertGlobal
    refine ⟨⟨[], ?_, fun _ hF => absurd hF List.not_mem_nil⟩, fun _ => rfl, fun _ h => h⟩
    rw [List.map_id, List.append_nil]
    split
    · rfl
    · rfl
  exact (hfold runtimeNames (by decide) M).trans (hglobal _)

theorem Grows.congr (h : Grows t M M') (heq : ∀ F, t F = t' F) : Grows t' M M' := by
  rw [← funext heq]
  exact h

/-! ### Globals -/

/-- The globals of a list are replaced one after the other. -/
def globalSub (ts : List (String × Bool × ℕ)) (a : Atom) : Val :=
  ts.foldl (fun v t => Val.replace (.var t.1) (dataPtr t.1 t.2.1) v) (.atom a)

theorem bind_globalSub_cons (p : String × Bool × ℕ) (ts : List (String × Bool × ℕ)) (v : Val) :
    v.bind (globalSub (p :: ts)) =
      (Val.replace (.var p.1) (dataPtr p.1 p.2.1) v).bind (globalSub ts) := by
  have hfold : ∀ (ts : List (String × Bool × ℕ)) (v : Val),
      ts.foldl (fun v t => Val.replace (.var t.1) (dataPtr t.1 t.2.1) v) v =
        v.bind (globalSub ts) := by
    intro ts
    induction ts with
    | nil => exact fun v => (Term.bind_eq_self fun _ _ => rfl).symm
    | cons p ts ih =>
      intro v
      have hatom : globalSub (p :: ts) =
          fun a => (Val.replace (.var p.1) (dataPtr p.1 p.2.1) (.atom a)).bind (globalSub ts) :=
        funext fun a => ih _
      rw [List.foldl_cons, ih, hatom]
      exact Term.bind_bind _ _ v
  rw [← hfold, ← hfold]
  rfl

theorem relabels_globalSub (ts : List (String × Bool × ℕ)) : Relabels id (globalSub ts) := by
  induction ts with
  | nil => exact relabels_id
  | cons p ts ih =>
    have hatom : globalSub (p :: ts) =
        fun a => (Val.replace (.var p.1) (dataPtr p.1 p.2.1) (.atom a)).bind (globalSub ts) :=
      funext fun a => bind_globalSub_cons p ts (.atom a)
    rw [hatom]
    exact (relabels_var rfl).comp ih

theorem grows_wrapGlobal (M : Module) (p : String × Bool × ℕ) :
    Grows (Func.mapVals (Val.replace (.var p.1) (dataPtr p.1 p.2.1))) M (wrapGlobal M p) := by
  have hrel : Relabels id fun a => if a = .var p.1 then dataPtr p.1 p.2.1 else .atom a :=
    relabels_var rfl
  have hmap := grows_mapVals hrel keepsHooks_id (fun _ _ => rfl) M
  exact ⟨hmap.functions, hmap.name, hmap.quiet⟩

theorem grows_wrapGlobal_foldl (ts : List (String × Bool × ℕ)) (M : Module) :
    Grows (Func.mapVals (Term.bind (globalSub ts))) M (ts.foldl wrapGlobal M) := by
  induction ts generalizing M with
  | nil =>
    exact (Grows.refl M).congr fun F =>
      (Func.mapVals_eq_self fun _ _ => Term.bind_eq_self fun _ _ => rfl).symm
  | cons p ts ih =>
    refine ((grows_wrapGlobal M p).trans (ih (wrapGlobal M p))).congr fun F => ?_
    rw [Function.comp_apply, F.mapVals_comp]
    exact congrArg (Func.mapVals · F) (funext fun v => (bind_globalSub_cons p ts v).symm)

theorem isRuntimeName_append {x y : String} (h : isRuntimeName x = true) :
    isRuntimeName (x ++ y) = true := by
  unfold isRuntimeName startsWith at *
  rw [List.isPrefixOf_iff_prefix] at *
  rw [String.toList_append]
  exact h.trans (List.prefix_append _ _)

theorem isRuntimeName_uniqueName (M : Module) (h : isRuntimeName N = true) :
    isRuntimeName (M.uniqueName N) = true := by
  unfold Module.uniqueName
  split
  · exact isRuntimeName_append (isRuntimeName_append h)
  · exact h

/-- The constructor only registers globals. -/
theorem quiet_globalCtor (hN : isRuntimeName N = true) (ts : List (String × Bool × ℕ)) :
    Quiet ⟨N, false, [⟨ts.map registerCall, .ret []⟩]⟩ where
  name := hN
  hooks := by
    unfold Func.hooks
    rw [List.flatMap_singleton, List.filterMap_map]
    refine List.filterMap_eq_nil_iff.mpr fun p _ => ?_
    obtain ⟨g, isExternal, S⟩ := p
    cases isExternal <;> rfl
  uses N hN := by
    obtain ⟨v, hv, hN⟩ := List.mem_flatMap.mp hN
    obtain ⟨B, hB, hv⟩ := List.mem_flatMap.mp hv
    obtain rfl := List.mem_singleton.mp hB
    rcases List.mem_append.mp hv with hv | hv
    · obtain ⟨I, hI, hv⟩ := List.mem_flatMap.mp hv
      obtain ⟨⟨g, isExternal, S⟩, -, rfl⟩ := List.mem_map.mp hI
      have hfuncs : v.funcs = [] ∨ v.funcs = ["__redzone_global_register_right"] ∨
          v.funcs = ["__redzone_global_register"] := by
        rcases List.mem_cons.mp hv with rfl | hv
        · cases isExternal
          · exact .inr (.inr rfl)
          · exact .inr (.inl rfl)
        · rcases List.mem_cons.mp hv with rfl | hv
          · exact .inl rfl
          · obtain rfl := List.mem_singleton.mp hv
            exact .inl rfl
      rcases hfuncs with h | h | h
      · rw [h] at hN
        exact absurd hN List.not_mem_nil
      · rw [h] at hN
        rw [List.mem_singleton.mp hN]
        decide
      · rw [h] at hN
        rw [List.mem_singleton.mp hN]
        decide
    · exact absurd hv List.not_mem_nil

theorem grows_addGlobalCtor (ts : List (String × Bool × ℕ)) (M : Module) :
    Grows id M (addGlobalCtor ts M) := by
  unfold addGlobalCtor
  split
  · exact Grows.refl M
  · refine ⟨⟨_, by rw [List.map_id], fun F hF => ?_⟩, fun _ => rfl, fun _ h => h⟩
    obtain rfl := List.mem_singleton.mp hF
    exact quiet_globalCtor (isRuntimeName_uniqueName M (by decide)) ts

theorem grows_wrapGlobals (M : Module) :
    Grows (Func.mapVals (Term.bind (globalSub M.targets))) M (wrapGlobals M) :=
  (grows_wrapGlobal_foldl M.targets M).trans (grows_addGlobalCtor M.targets _)

/-- The globals that the pass declares are not wrapped. -/
theorem targets_declareRuntime (M : Module) : (declareRuntime M).targets = M.targets := by
  have hfold : ∀ (names : List String) (M : Module),
      (names.foldl Module.getOrInsertFunction M).globals = M.globals := by
    intro names
    induction names with
    | nil => exact fun _ => rfl
    | cons N names ih =>
      intro M
      rw [List.foldl_cons, ih]
      unfold Module.getOrInsertFunction
      split
      · rfl
      · rfl
  unfold declareRuntime Module.targets Module.getOrInsertGlobal
  split
  · rw [hfold]
  · rw [hfold, List.filterMap_append]
    exact List.append_nil _

/-! ### Functions -/

theorem instrumentFunction_runtime (cfg : Config) (h : isRuntimeName F.name = true) :
    instrumentFunction cfg F = F := by
  unfold instrumentFunction
  rw [if_pos h, ite_self]

theorem grows_instrumentFunctions (cfg : Config) (M : Module) :
    Grows (instrumentFunction cfg) M (instrumentFunctions cfg M) where
  functions := ⟨[], (List.append_nil _).symm, fun _ hF => absurd hF List.not_mem_nil⟩
  name F := by
    unfold instrumentFunction
    split
    · rfl
    split
    · rfl
    split
    · rfl
    · rfl
  quiet F hF := by
    rw [instrumentFunction_runtime cfg hF.name]
    exact hF

/-! ### Addresses -/

/-- A function after those of a list that the module has are renamed. -/
def renamed (L : List (String × String)) (M : Module) (N : String) : String :=
  if (M.getFunction N).isSome then (L.lookup N).getD N else N

/-- Functions outside the runtime are renamed to functions of the runtime that are no
hooks. -/
def Wraps (R : String × String) : Prop :=
  isRuntimeName R.1 = false ∧ isRuntimeName R.2 = true ∧ hookNames.contains R.2 = false

theorem mem_of_lookup {L : List (String × String)} {W : String} (h : L.lookup N = some W) :
    (N, W) ∈ L := by
  obtain ⟨L₁, L₂, rfl, -⟩ := List.lookup_eq_some_iff.mp h
  exact List.mem_append_right _ List.mem_cons_self

theorem renamed_of_lookup_none {L : List (String × String)} (h : L.lookup N = none) (M : Module) :
    renamed L M N = N := by
  unfold renamed
  rw [h, Option.getD_none, ite_self]

theorem lookup_runtime {L : List (String × String)} (hL : ∀ R ∈ L, Wraps R)
    (hN : isRuntimeName N = true) : L.lookup N = none := by
  refine Option.eq_none_iff_forall_ne_some.mpr fun W hW => ?_
  have hkey := (hL _ (mem_of_lookup hW)).1
  rw [hN] at hkey
  exact absurd hkey (by decide)

theorem not_hook (hN : isRuntimeName N = false) : hookNames.contains N = false := by
  have hhooks : ∀ h ∈ hookNames, isRuntimeName h = true := by decide
  rw [← Bool.not_eq_true, List.contains_iff_mem]
  intro hmem
  rw [hhooks N hmem] at hN
  exact absurd hN (by decide)

theorem keepsHooks_renamed {L : List (String × String)} (hL : ∀ R ∈ L, Wraps R) (M : Module) :
    KeepsHooks (renamed L M) := by
  intro N
  cases hlook : L.lookup N with
  | none => exact .inl (renamed_of_lookup_none hlook M)
  | some W =>
    obtain ⟨hN, -, hW⟩ := hL (N, W) (mem_of_lookup hlook)
    unfold renamed
    rw [hlook]
    split
    · exact .inr ⟨not_hook hN, hW⟩
    · exact .inl rfl

/-- The phase that renames is a phase. -/
theorem grows_renamed {L : List (String × String)} (hL : ∀ R ∈ L, Wraps R) (M M' : Module) :
    Grows (Func.mapVals (Term.bind (renameSub (renamed L M)))) M'
      (M'.mapVals (Term.bind (renameSub (renamed L M)))) :=
  grows_mapVals (relabels_rename _) (keepsHooks_renamed hL M)
    (fun _ hN => renamed_of_lookup_none (lookup_runtime hL hN) M) M'

theorem mapVals_renameSub_id (F : Func) : F.mapVals (Term.bind (renameSub id)) = F :=
  Func.mapVals_eq_self fun _ _ => Term.bind_eq_self fun a _ => by cases a <;> rfl

/-- One function is renamed, if the module has it. -/
theorem grows_redirectPointer {R : String × String} (hR : Wraps R) (M : Module) :
    Grows (Func.mapVals (Term.bind (renameSub (renamed [R] M)))) M (redirectPointer M R) := by
  have hL : ∀ R' ∈ [R], Wraps R' := List.forall_mem_singleton.mpr hR
  cases hdecl : (M.getFunction R.1).isSome with
  | false =>
    have hid : renamed [R] M = id := by
      funext N
      unfold renamed
      rw [List.lookup_singleton]
      split
      · rename_i hN
        split
        · rename_i heq
          rw [eq_of_beq heq, hdecl] at hN
          exact absurd hN (by decide)
        · rfl
      · rfl
    unfold redirectPointer
    rw [if_pos (by rw [hdecl]; rfl), hid]
    exact (Grows.refl M).congr fun F => (mapVals_renameSub_id F).symm
  | true =>
    have hone : renamed [R] M = fun N => if N = R.1 then R.2 else N := by
      funext N
      unfold renamed
      rw [List.lookup_singleton]
      by_cases h : N = R.1
      · rw [if_pos h, h, hdecl, if_pos rfl, if_pos (beq_self_eq_true _)]
        rfl
      · rw [if_neg h, beq_eq_false_iff_ne.mpr h]
        exact ite_self N
    have hreplace : Val.replace (.func R.1) (funcAddr R.2) =
        Term.bind (renameSub (renamed [R] M)) := by
      rw [hone]
      exact funext fun v => replace_func v
    unfold redirectPointer
    rw [hdecl, Bool.not_true, Bool.false_or]
    split
    · rename_i hempty
      have hgrows := grows_renamed hL M M
      refine ⟨⟨[], ?_, fun _ hF => absurd hF List.not_mem_nil⟩, hgrows.name, hgrows.quiet⟩
      rw [List.append_nil, ← hreplace]
      refine ((List.map_congr_left fun F hF => ?_).trans (List.map_id _)).symm
      refine Func.mapVals_eq_self fun v hv => replace_func_of_not_mem fun hmem => ?_
      have hop : v ∈ M.operands := List.mem_append_left _
        (List.mem_append_left _ (List.mem_flatMap.mpr ⟨F, hF, hv⟩))
      have hno := List.all_eq_true.mp hempty v hop
      rw [List.contains_iff_mem.mpr hmem] at hno
      exact absurd hno (by decide)
    · unfold Module.replaceAllUsesWith
      rw [hreplace]
      exact (grows_getOrInsertFunction hR.2.1 M).trans (grows_renamed hL M _)

/-- Renaming one function and then those of a list is renaming all of them. -/
theorem renamed_cons {R : String × String} {L : List (String × String)} (hR : Wraps R)
    (hL : ∀ R ∈ L, Wraps R) (h : Grows t M M') :
    renamed L M' ∘ renamed [R] M = renamed (R :: L) M := by
  obtain ⟨k, W⟩ := R
  funext N
  rw [Function.comp_apply]
  by_cases hk : N = k
  · subst hk
    have hfirst : ∀ L', renamed ((N, W) :: L') M N =
        if (M.getFunction N).isSome then W else N := by
      intro L'
      unfold renamed
      rw [List.lookup_cons_self, Option.getD_some]
    rw [hfirst, hfirst]
    split
    · exact renamed_of_lookup_none (lookup_runtime hL hR.2.1) M'
    · rename_i hno
      unfold renamed
      rw [h.getFunction hR.1, if_neg hno]
  · have hother : ∀ L', ((k, W) :: L').lookup N = L'.lookup N := by
      intro L'
      rw [List.lookup_cons, beq_eq_false_iff_ne.mpr hk]
    rw [renamed_of_lookup_none (L := [(k, W)]) (hother [])]
    unfold renamed
    rw [hother]
    cases hlook : L.lookup N with
    | none => rw [Option.getD_none, ite_self, ite_self]
    | some W' => rw [h.getFunction (hL _ (mem_of_lookup hlook)).1]

theorem grows_redirectPointers {L : List (String × String)} (hL : ∀ R ∈ L, Wraps R) (M : Module) :
    Grows (Func.mapVals (Term.bind (renameSub (renamed L M)))) M (L.foldl redirectPointer M) := by
  induction L generalizing M with
  | nil =>
    have hid : renamed [] M = id := funext fun N => renamed_of_lookup_none rfl M
    rw [hid]
    exact (Grows.refl M).congr fun F => (mapVals_renameSub_id F).symm
  | cons R L ih =>
    obtain ⟨hR, hL⟩ := List.forall_mem_cons.mp hL
    have hone := grows_redirectPointer hR M
    refine (hone.trans (ih hL _)).congr fun F => ?_
    rw [Function.comp_apply, F.mapVals_comp]
    refine congrArg (Func.mapVals · F) (funext fun v => ?_)
    rw [Function.comp_apply, renameSub_comp, renamed_cons hR hL hone]

theorem wraps_kAllocPtr : ∀ R ∈ kAllocPtr, Wraps R := by
  unfold Wraps
  decide

end Phases

/-! ## The run -/

/-- What a run makes of an operand that it passes on: the globals that are wrapped are
replaced, and the allocation functions that have a wrapper for their address. -/
def Module.after (M : Module) (v : Val) : Val :=
  (v.bind (globalSub M.targets)).bind (renameSub (renamed kAllocPtr M))

/-- A function after a run. -/
def Module.finished (M : Module) (cfg : Config) (F : Func) : Func :=
  (instrumentFunction cfg (F.mapVals (Term.bind (globalSub M.targets)))).mapVals
    (Term.bind (renameSub (renamed kAllocPtr M)))

/-- What a run does to the functions of a module. -/
theorem grows_run (cfg : Config) (M : Module) : Grows (M.finished cfg) M (run cfg M) := by
  have hglobals := (grows_declareRuntime M).trans (grows_wrapGlobals (declareRuntime M))
  rw [targets_declareRuntime] at hglobals
  have hfunctions := hglobals.trans (grows_instrumentFunctions cfg _)
  have hrenamed : renamed kAllocPtr (instrumentFunctions cfg (wrapGlobals (declareRuntime M))) =
      renamed kAllocPtr M := by
    funext N
    unfold renamed
    cases hlook : kAllocPtr.lookup N with
    | none => rw [Option.getD_none, ite_self, ite_self]
    | some W => rw [hfunctions.getFunction (wraps_kAllocPtr _ (mem_of_lookup hlook)).1]
  have hall := hfunctions.trans (grows_redirectPointers wraps_kAllocPtr _)
  rw [hrenamed] at hall
  exact hall

end Redzone.Pass.AddressMode
