/-
  Pass/AllocatorUses.lean --- the uses of the allocation functions after a run of the
  address mode.

  Outside the runtime every use is meant to be redirected (`RedirectionComplete`), and in
  the runtime none (`RuntimeLeftAlone`).  The first fails where a use is not a `CallInst`
  and its function has no wrapper for its address, the second where the runtime's
  functions are in the module and use one that has.
-/
import Redzone.Pass.Redirection

set_option autoImplicit false

namespace Redzone.Pass.AddressMode

open Redzone.Foundation

/-! ## The runtime's functions -/

/-- For each operand, how often it names the function. -/
def namings (N : String) (ops : List Val) : List ℕ := ops.map fun v => v.funcs.count N

/-- Where a function names another one: in which operands of which instructions, and of the
terminators, of its blocks. -/
def Func.places (F : Func) (N : String) : List (List (List ℕ) × List ℕ) :=
  F.blocks.map fun B => (B.insts.map fun I => namings N I.operands, namings N B.term.operands)

/-- A function of the runtime after a run: it has the checks and stack hooks it had, and
uses `malloc`, `calloc`, `realloc` and `free` where it did. -/
structure LeftAlone (F F' : Func) : Prop where
  name : F'.name = F.name
  hooks : F'.hooks = F.hooks
  places : ∀ N ∈ kAllocPtr.map Prod.fst, F'.places N = F.places N

/-- The runtime's functions are left alone.  Those that the pass adds have no hooks and use
no allocation function. -/
structure RuntimeLeftAlone (cfg : Config) (M : Module) : Prop where
  old : ∀ (i : ℕ) (F : Func), M.functions[i]? = some F → isRuntimeName F.name = true →
    ∃ F', (run cfg M).functions[i]? = some F' ∧ LeftAlone F F'
  new : ∀ (i : ℕ) (F' : Func), (run cfg M).functions[i]? = some F' → M.functions.length ≤ i →
    F'.hooks = [] ∧ ∀ N ∈ kAllocPtr.map Prod.fst, N ∉ F'.uses

section Runtime

variable {cfg : Config} {M : Module} {F F' : Func} {N : String} {i : ℕ}

/-- The functions that a module has keep their places. -/
theorem getElem?_run (h : M.functions[i]? = some F) :
    (run cfg M).functions[i]? = some (M.finished cfg F) := by
  obtain ⟨new, hrun, -⟩ := (grows_run cfg M).functions
  obtain ⟨hi, hF⟩ := List.getElem?_eq_some_iff.mp h
  rw [hrun, List.getElem?_append_left (by rw [List.length_map]; exact hi), List.getElem?_map, h]
  rfl

/-- A function after a run is one that the module has had, or one that is added. -/
theorem mem_run (h : F' ∈ (run cfg M).functions) :
    (∃ F ∈ M.functions, F' = M.finished cfg F) ∨ Quiet F' := by
  obtain ⟨new, hrun, hnew⟩ := (grows_run cfg M).functions
  rw [hrun] at h
  rcases List.mem_append.mp h with h | h
  · obtain ⟨F, hF, rfl⟩ := List.mem_map.mp h
    exact .inl ⟨F, hF, rfl⟩
  · exact .inr (hnew F' h)

theorem isRuntimeName_kAllocPtr (h : N ∈ kAllocPtr.map Prod.fst) : isRuntimeName N = false := by
  obtain ⟨R, hR, rfl⟩ := List.mem_map.mp h
  exact (wraps_kAllocPtr R hR).1

theorem finished_runtime (h : isRuntimeName F.name = true) :
    M.finished cfg F = F.mapVals M.after := by
  have hname : isRuntimeName (F.mapVals (Term.bind (globalSub M.targets))).name = true := h
  unfold Module.finished
  rw [instrumentFunction_runtime cfg hname, F.mapVals_comp]
  rfl

/-- If only a function itself becomes the function, operands name it as often. -/
theorem namings_map {rename : String → String} {s : Atom → Val} (h : Relabels rename s)
    {ops : List Val} (hN : ∀ N' ∈ ops.flatMap Val.funcs, rename N' = N ↔ N' = N) :
    namings N (ops.map (Term.bind s)) = namings N ops := by
  unfold namings
  rw [List.map_map]
  refine List.map_congr_left fun v hv => ?_
  rw [Function.comp_apply, h.funcs, List.count_eq_countP, List.count_eq_countP, List.countP_map]
  refine List.countP_congr fun N' hN' => ?_
  rw [Function.comp_apply, beq_iff_eq, beq_iff_eq]
  exact hN N' (List.mem_flatMap.mpr ⟨v, hv, hN'⟩)

theorem places_mapVals {rename : String → String} {s : Atom → Val} (h : Relabels rename s)
    (hN : ∀ N' ∈ F.uses, rename N' = N ↔ N' = N) :
    (F.mapVals (Term.bind s)).places N = F.places N := by
  unfold Func.places Func.mapVals
  rw [List.map_map]
  refine List.map_congr_left fun B hB => ?_
  rw [Function.comp_apply]
  unfold Block.mapVals
  rw [List.map_map, B.term.operands_mapVals]
  refine Prod.ext (List.map_congr_left fun I hI => ?_) ?_
  · rw [Function.comp_apply, I.operands_mapVals]
    exact namings_map h fun N' hN' =>
      hN N' (mem_uses_iff.mpr ⟨B, hB, .inl (List.mem_flatMap.mpr ⟨I, hI, hN'⟩)⟩)
  · exact namings_map h fun N' hN' => hN N' (mem_uses_iff.mpr ⟨B, hB, .inr hN'⟩)

theorem mem_iff_namings {ops : List Val} :
    N ∈ ops.flatMap Val.funcs ↔ ∃ c ∈ namings N ops, c ≠ 0 := by
  unfold namings
  simp only [List.mem_flatMap, List.mem_map, exists_exists_and_eq_and]
  refine exists_congr fun v => and_congr_right fun _ => ?_
  rw [Ne, List.count_eq_zero, not_not]

/-- A function is named in some place, or in none. -/
theorem mem_uses_iff_places :
    N ∈ F.uses ↔ ∃ p ∈ F.places N, ∃ c ∈ p.1.flatten ++ p.2, c ≠ 0 := by
  unfold Func.places
  simp only [mem_uses_iff, List.mem_map, exists_exists_and_eq_and]
  refine exists_congr fun B => and_congr_right fun _ => ?_
  have hinsts : N ∈ B.insts.flatMap Inst.uses ↔
      ∃ c ∈ (B.insts.map fun I => namings N I.operands).flatten, c ≠ 0 := by
    simp only [List.mem_flatMap, List.mem_flatten, List.mem_map]
    constructor
    · rintro ⟨I, hI, hN⟩
      obtain ⟨c, hc, hne⟩ := mem_iff_namings.mp hN
      exact ⟨c, ⟨_, ⟨I, hI, rfl⟩, hc⟩, hne⟩
    · rintro ⟨c, ⟨_, ⟨I, hI, rfl⟩, hc⟩, hne⟩
      exact ⟨I, hI, mem_iff_namings.mpr ⟨c, hc, hne⟩⟩
  rw [hinsts, mem_iff_namings]
  simp only [List.mem_append, or_and_right, exists_or]

/-- **The runtime's functions are left alone exactly if none of them uses an allocation
function whose address has a wrapper.** -/
theorem runtime_left_alone_iff (cfg : Config) (M : Module) : RuntimeLeftAlone cfg M ↔
    ∀ F ∈ M.functions, isRuntimeName F.name = true →
      ∀ N ∈ kAllocPtr.map Prod.fst, (M.getFunction N).isSome = true → N ∉ F.uses := by
  constructor
  · intro h F hF hname N hN hdecl hmem
    obtain ⟨i, hi⟩ := List.getElem?_of_mem hF
    obtain ⟨F', hF', halone⟩ := h.old i F hi hname
    rw [getElem?_run hi, finished_runtime hname] at hF'
    obtain rfl := Option.some.inj hF'
    have huses : N ∈ (F.mapVals M.after).uses := by
      rw [mem_uses_iff_places, halone.places N hN, ← mem_uses_iff_places]
      exact hmem
    rw [after_eq, func_uses_mapVals (relabels_after M)] at huses
    obtain ⟨N', -, hren⟩ := List.mem_map.mp huses
    exact ((renamed_eq_iff (isRuntimeName_kAllocPtr hN)).mp hren).2 ⟨hN, hdecl⟩
  · intro hcond
    refine ⟨fun i F hi hname => ⟨F.mapVals M.after, ?_, rfl, ?_, fun N hN => ?_⟩, ?_⟩
    · rw [getElem?_run hi, finished_runtime hname]
    · rw [after_eq]
      exact hooks_mapVals (relabels_after M) (keepsHooks_renamed wraps_kAllocPtr M) F
    · rw [after_eq]
      refine places_mapVals (relabels_after M) fun N' hN' => ?_
      rw [renamed_eq_iff (isRuntimeName_kAllocPtr hN)]
      refine and_iff_left_of_imp ?_
      rintro rfl ⟨-, hdecl⟩
      exact hcond F (List.mem_of_getElem? hi) hname N' hN hdecl hN'
    · intro i F' hi hlen
      obtain ⟨new, hrun, hnew⟩ := (grows_run cfg M).functions
      have hmem : F' ∈ new := by
        rw [hrun, List.getElem?_append_right (by rw [List.length_map]; exact hlen)] at hi
        exact List.mem_of_getElem? hi
      refine ⟨(hnew F' hmem).hooks, fun N hN huse => ?_⟩
      have hruntime := (hnew F' hmem).uses N huse
      rw [isRuntimeName_kAllocPtr hN] at hruntime
      exact absurd hruntime (by decide)

end Runtime

/-- A compilation with nothing opted out and no pointer that starts from an alloca. -/
def plainConfig : Config := ⟨false, fun _ => false, fun _ _ => (.value 0, 0)⟩

/-- The runtime in one module with its allocator, which calls `malloc`. -/
def runtimeModule : Module :=
  ⟨[⟨"__redzone_malloc", false,
      [⟨[.call (some 1) ⟨funcAddr "malloc", true, [.atom (.ssa 0)]⟩ none],
        .ret [.atom (.ssa 1)]⟩]⟩,
    ⟨"malloc", false, []⟩], [], []⟩

/-- The call of `malloc` in `__redzone_malloc` is redirected to a wrapper of
`__redzone_malloc`. -/
theorem runtime_not_left_alone : ¬ RuntimeLeftAlone plainConfig runtimeModule := by
  intro h
  obtain ⟨F', hF', halone⟩ := h.old 0 _ rfl (by decide)
  have hafter : (run plainConfig runtimeModule).functions[0]?.map (Func.places · "malloc") =
      some [([[0, 0]], [0])] := by
    decide +kernel
  rw [hF', Option.map_some, halone.places "malloc" (by decide)] at hafter
  exact absurd hafter (by decide)

/-! ## Everyone else's functions -/

/-- The allocation and deallocation functions that the pass knows by name. -/
def allocNames : List String := allocRedirects.map Prod.fst

/-- What an argument means to an allocation function. -/
inductive Param where
  | size
  | count
  | align
  | ptr
  /-- Where `posix_memalign` puts the block. -/
  | memptr
  | file
  | line
  deriving DecidableEq, Repr

/-- The parameters of the allocation functions and of the runtime's entry points. -/
def paramTable : List (String × List Param) :=
  [("malloc", [.size]),
   ("calloc", [.count, .size]),
   ("realloc", [.ptr, .size]),
   ("free", [.ptr]),
   ("aligned_alloc", [.align, .size]),
   ("posix_memalign", [.memptr, .align, .size]),
   ("_Znwm", [.size]),
   ("_Znam", [.size]),
   ("_ZnwmSt11align_val_t", [.size, .align]),
   ("_ZnamSt11align_val_t", [.size, .align]),
   ("_ZdlPv", [.ptr]),
   ("_ZdaPv", [.ptr]),
   ("_ZdlPvm", [.ptr, .size]),
   ("_ZdaPvm", [.ptr, .size]),
   ("_ZdlPvSt11align_val_t", [.ptr, .align]),
   ("_ZdaPvSt11align_val_t", [.ptr, .align]),
   ("_ZdlPvmSt11align_val_t", [.ptr, .size, .align]),
   ("_ZdaPvmSt11align_val_t", [.ptr, .size, .align]),
   ("__redzone_malloc", [.size, .file, .line]),
   ("__redzone_calloc", [.count, .size, .file, .line]),
   ("__redzone_realloc", [.ptr, .size, .file, .line]),
   ("__redzone_aligned_alloc", [.align, .size, .file, .line]),
   ("__redzone_posix_memalign", [.memptr, .align, .size, .file, .line]),
   ("__redzone_free", [.ptr]),
   ("__redzone_malloc_plain", [.size]),
   ("__redzone_calloc_plain", [.count, .size]),
   ("__redzone_realloc_plain", [.ptr, .size])]

def paramsOf (N : String) : List Param := (paramTable.lookup N).getD []

/-- The entry points of the runtime that match an allocation function. -/
def entryTable : List (String × List String) :=
  [("malloc", ["__redzone_malloc", "__redzone_malloc_plain"]),
   ("calloc", ["__redzone_calloc", "__redzone_calloc_plain"]),
   ("realloc", ["__redzone_realloc", "__redzone_realloc_plain"]),
   ("free", ["__redzone_free"]),
   ("aligned_alloc", ["__redzone_aligned_alloc"]),
   ("posix_memalign", ["__redzone_posix_memalign"]),
   ("_Znwm", ["__redzone_malloc"]),
   ("_Znam", ["__redzone_malloc"]),
   ("_ZnwmSt11align_val_t", ["__redzone_aligned_alloc"]),
   ("_ZnamSt11align_val_t", ["__redzone_aligned_alloc"]),
   ("_ZdlPv", ["__redzone_free"]),
   ("_ZdaPv", ["__redzone_free"]),
   ("_ZdlPvm", ["__redzone_free"]),
   ("_ZdaPvm", ["__redzone_free"]),
   ("_ZdlPvSt11align_val_t", ["__redzone_free"]),
   ("_ZdaPvSt11align_val_t", ["__redzone_free"]),
   ("_ZdlPvmSt11align_val_t", ["__redzone_free"]),
   ("_ZdaPvmSt11align_val_t", ["__redzone_free"])]

def entryPoints (N : String) : List String := (entryTable.lookup N).getD []

/-- The argument with a meaning. -/
def argOf (N : String) (args : List Val) (p : Param) : Val :=
  getArgOperand args ((paramsOf N).idxOf p)

/-- The new call has every argument that the entry point asks for, but for file and line,
from the old call. -/
def SameArgs (M : Module) (N : String) (args : List Val) (W : String) (args' : List Val) : Prop :=
  ∀ p ∈ paramsOf W, p ≠ .file → p ≠ .line →
    p ∈ paramsOf N ∧ argOf W args' p = M.after (argOf N args p)

/-- What is in the place of an instruction: a call or invoke of an allocation function has
become one of a matching entry point with the same arguments, and for an address the
address of a matching entry point stands. -/
structure Reaches (M : Module) (site site' : Option CallSite) (ops ops' : List Val) : Prop where
  call : ∀ c N, site = some c → c.directCallee = some N → N ∈ allocNames →
    ∃ c' W, site' = some c' ∧ c'.directCallee = some W ∧ W ∈ entryPoints N ∧
      SameArgs M N c.args W c'.args
  address : ∀ v ∈ ops, ∀ N ∈ v.funcs, N ∈ allocNames →
    M.after v ∈ ops' ∧ ∃ W ∈ entryPoints N, M.after (funcAddr N) = funcAddr W

/-- What has become of a block: there is something in the place of every instruction, in
order, and of the terminator. -/
structure BlockReaches (M : Module) (skip : Bool) (B B' : Block) : Prop where
  insts : ∃ segs tail, B'.insts = segs.flatten ++ tail ∧ List.Forall₂ (fun I seg => ∃ I' ∈ seg,
    Reaches M I.site I'.site (I.passedOn skip) I'.operands) B.insts segs
  term : Reaches M B.term.site B'.term.site B.term.operands B'.term.operands

/-- Allocator redirection is complete: outside the runtime no use of an allocation function
is left, and each has reached its entry point. -/
structure RedirectionComplete (cfg : Config) (M : Module) : Prop where
  noneLeft : ∀ F ∈ (run cfg M).functions, isRuntimeName F.name = false →
    ∀ N ∈ allocNames, N ∉ F.uses
  reached : ∀ (i : ℕ) (F : Func), M.functions[i]? = some F → isRuntimeName F.name = false →
    ∃ F', (run cfg M).functions[i]? = some F' ∧ F'.name = F.name ∧
      List.Forall₂ (BlockReaches M (cfg.skipInstr F)) F.blocks F'.blocks

section Reach

variable {cfg : Config} {M : Module} {F F' : Func} {N W : String} {i j : ℕ} {r : Redirect}
  {args : List Val} {loc : Option DebugLoc}

theorem isRuntimeName_allocNames (h : N ∈ allocNames) : isRuntimeName N = false := by
  have hnames : ∀ N ∈ allocNames, isRuntimeName N = false := by decide +kernel
  exact hnames N h

/-- The argument of the old call that comes at a place of the new one. -/
def Redirect.source (r : Redirect) (i : ℕ) : Option ℕ :=
  match r.front[i]? with
  | some (.arg j) => some j
  | some (.cast _ _) => none
  | none => if r.hasLoc then none else r.tailStart.map fun t => t + (i - r.front.length)

theorem Redirect.getArgOperand_rebuild (h : r.source i = some j) :
    getArgOperand (r.rebuild args loc).args i = getArgOperand args j := by
  unfold source at h
  unfold rebuild getArgOperand
  rw [List.getD_eq_getElem?_getD, List.getD_eq_getElem?_getD]
  cases hfront : r.front[i]? with
  | some f =>
    rw [hfront] at h
    have hlt := (List.getElem?_eq_some_iff.mp hfront).1
    cases f with
    | cast bits j => exact absurd h (by simp)
    | arg j' =>
      obtain rfl := Option.some.inj h
      rw [List.append_assoc, List.getElem?_append_left (by rw [List.length_map]; exact hlt),
        List.getElem?_map, hfront]
      rfl
  | none =>
    rw [hfront] at h
    have hge := List.getElem?_eq_none_iff.mp hfront
    cases hloc : r.hasLoc with
    | true =>
      rw [hloc] at h
      exact absurd h (by simp)
    | false =>
      rw [hloc] at h
      obtain ⟨t, ht, rfl⟩ := Option.map_eq_some_iff.mp h
      rw [if_neg (by decide), List.append_nil, ht,
        List.getElem?_append_right (by rw [List.length_map]; exact hge), List.length_map]
      exact congrArg (Option.getD · _) List.getElem?_drop

/-- The tables agree: a rebuilt call goes to a matching entry point, with the arguments it
asks for. -/
theorem allocRedirects_match : ∀ R ∈ allocRedirects, R.2.callee ∈ entryPoints R.1 ∧
    ∀ p ∈ paramsOf R.2.callee, p ≠ .file → p ≠ .line → p ∈ paramsOf R.1 ∧
      R.2.source ((paramsOf R.2.callee).idxOf p) = some ((paramsOf R.1).idxOf p) := by
  decide +kernel

/-- A wrapper for an address is a matching entry point with the same parameters. -/
theorem kAllocPtr_match : ∀ R ∈ kAllocPtr, R.2 ∈ entryPoints R.1 ∧
    paramsOf R.2 = paramsOf R.1 := by
  decide +kernel

theorem after_funcAddr (M : Module) (N : String) :
    M.after (funcAddr N) = funcAddr (renamed kAllocPtr M N) := by
  rw [after_eq]
  exact (relabels_after M).func N

/-- The wrapper of an address. -/
theorem Module.HasWrapper.exists (h : M.HasWrapper N) : ∃ W, renamed kAllocPtr M N = W ∧
    W ∈ entryPoints N ∧ paramsOf W = paramsOf N := by
  obtain ⟨hkey, hdecl⟩ := h
  cases hlook : kAllocPtr.lookup N with
  | none =>
    obtain ⟨R, hR, rfl⟩ := List.mem_map.mp hkey
    exact absurd (List.lookup_eq_none_iff.mp hlook R hR) (by simp)
  | some W =>
    refine ⟨W, ?_, kAllocPtr_match _ (mem_of_lookup hlook)⟩
    unfold renamed
    rw [hdecl, if_pos rfl, hlook, Option.getD_some]

theorem after_argOf (M : Module) (N : String) (args : List Val) (p : Param) :
    argOf N (args.map M.after) p = M.after (argOf N args p) := by
  unfold argOf
  rw [after_eq]
  exact (relabels_after M).getArgOperand args _

/-- A call or invoke that is left in its place reaches the wrapper of its callee's
address. -/
theorem reaches_kept {c : CallSite} (hN : c.directCallee = some N) (hwrap : M.HasWrapper N) :
    ∃ c' W, some (c.mapVals M.after) = some c' ∧ c'.directCallee = some W ∧
      W ∈ entryPoints N ∧ SameArgs M N c.args W c'.args := by
  obtain ⟨W, hren, hentry, hparams⟩ := hwrap.exists
  refine ⟨_, W, rfl, ?_, hentry, fun p hp _ _ => ?_⟩
  · rw [after_eq, (relabels_after M).directCallee, hN, Option.map_some, hren]
  · rw [hparams] at hp
    refine ⟨hp, ?_⟩
    unfold argOf
    rw [hparams]
    exact after_argOf M N c.args p

/-- A call that is rebuilt reaches its entry point. -/
theorem reaches_rebuilt (M : Module) (hr : allocRedirects.lookup N = some r)
    (args : List Val) (loc : Option DebugLoc) :
    ∃ c' W, some ((r.rebuild args loc).mapVals M.after) = some c' ∧ c'.directCallee = some W ∧
      W ∈ entryPoints N ∧ SameArgs M N args W c'.args := by
  obtain ⟨hentry, hargs⟩ := allocRedirects_match _ (mem_of_lookup_redirect hr)
  have hcall : callRedirect true N = some r := (callRedirect_true N).trans hr
  have hruntime : isRuntimeName r.callee = true := isRuntimeName_callee hcall
  refine ⟨_, r.callee, rfl, ?_, hentry, fun p hp hfile hline => ?_⟩
  · have hdirect : (r.rebuild args loc).directCallee = some r.callee := rfl
    rw [after_eq, (relabels_after M).directCallee, hdirect, Option.map_some,
      renamed_kAllocPtr_runtime M _ hruntime]
  · obtain ⟨hmem, hsource⟩ := hargs p hp hfile hline
    refine ⟨hmem, (after_argOf M r.callee _ p).trans (congrArg M.after ?_)⟩
    exact Redirect.getArgOperand_rebuild hsource

/-- Operands that are passed on have the addresses of wrappers in them. -/
theorem reaches_address {ops ops' : List Val}
    (hwrap : ∀ N ∈ ops.flatMap Val.funcs, N ∈ allocNames → M.HasWrapper N)
    (hsub : ops ⊆ ops') : ∀ v ∈ ops, ∀ N ∈ v.funcs, N ∈ allocNames →
      M.after v ∈ ops'.map M.after ∧ ∃ W ∈ entryPoints N, M.after (funcAddr N) = funcAddr W := by
  intro v hv N hN halloc
  obtain ⟨W, hren, hentry, -⟩ := (hwrap N (List.mem_flatMap.mpr ⟨v, hv, hN⟩) halloc).exists
  exact ⟨List.mem_map_of_mem (hsub hv), W, hentry, by rw [after_funcAddr, hren]⟩

theorem directCallee_mem_uses {c : CallSite} (h : c.directCallee = some N) :
    N ∈ c.operands.flatMap Val.funcs := by
  refine List.mem_flatMap.mpr ⟨c.callee, List.mem_cons_self, ?_⟩
  rw [func?_eq_some_iff.mp h, funcs_funcAddr]
  exact List.mem_singleton.mpr rfl

theorem exists_allocRedirect (h : N ∈ allocNames) : ∃ r, allocRedirects.lookup N = some r := by
  cases hlook : allocRedirects.lookup N with
  | some r => exact ⟨r, rfl⟩
  | none =>
    obtain ⟨R, hR, rfl⟩ := List.mem_map.mp h
    exact absurd (List.lookup_eq_none_iff.mp hlook R hR) (by simp)

/-- What stands in the place of an instruction has reached its entry points, if what is
passed on has a wrapper for its address. -/
theorem reaches_becomes {skip : Bool} (I : Inst)
    (hwrap : ∀ N ∈ (I.passedOn skip).flatMap Val.funcs, N ∈ allocNames → M.HasWrapper N) :
    Reaches M I.site ((I.becomes skip).mapVals M.after).site (I.passedOn skip)
      ((I.becomes skip).mapVals M.after).operands where
  address := by
    rw [Inst.operands_mapVals]
    exact reaches_address hwrap I.passedOn_subset
  call c N hsite hN halloc := by
    cases I with
    | call dst c' loc =>
      obtain rfl := Option.some.inj hsite
      cases htype : c'.typeMatches with
      | true =>
        obtain ⟨r, hr⟩ := exists_allocRedirect halloc
        have hcalled : c'.getCalledFunction.bind (callRedirect skip) = some r := by
          rw [CallSite.getCalledFunction, htype, if_pos rfl, hN, Option.bind_some, callRedirect, hr]
        rw [(Inst.becomes_rebuilt hcalled).1]
        exact reaches_rebuilt M hr c'.args loc
      | false =>
        have hcalled : c'.getCalledFunction.bind (callRedirect skip) = none := by
          rw [CallSite.getCalledFunction, htype, if_neg (by decide), Option.bind_none]
        rw [(Inst.becomes_kept hcalled).2] at hwrap
        rw [(Inst.becomes_kept hcalled).1]
        exact reaches_kept hN (hwrap N (directCallee_mem_uses hN) halloc)
    | _ => exact absurd hsite (by simp [Inst.site])

/-- An alloca is no call, and passes nothing on. -/
theorem becomes_eq_alloca {skip : Bool} {I : Inst} {a : Stack.Alloca}
    (h : (I.becomes skip).mapVals M.after = .alloca a) : I = .alloca a := by
  cases I with
  | call dst c loc =>
    cases hr : c.getCalledFunction.bind (callRedirect skip) with
    | none =>
      rw [(Inst.becomes_kept hr).1] at h
      exact absurd h (by simp [Inst.mapVals])
    | some r =>
      rw [(Inst.becomes_rebuilt hr).1] at h
      exact absurd h (by simp [Inst.mapVals])
  | mem kind dest src len loc =>
    cases skip <;> exact absurd h (by simp [Inst.becomes, Inst.mapVals])
  | alloca a' => exact h
  | _ => exact absurd h (by simp [Inst.becomes, Inst.mapVals])

theorem reaches_places {skip : Bool} {I : Inst} {seg : List Inst}
    (hplaces : Places ((I.becomes skip).mapVals M.after) seg)
    (hwrap : ∀ N ∈ (I.passedOn skip).flatMap Val.funcs, N ∈ allocNames → M.HasWrapper N) :
    ∃ I' ∈ seg, Reaches M I.site I'.site (I.passedOn skip) I'.operands := by
  rcases hplaces.place with ⟨a, ha⟩ | hmem
  · obtain ⟨I', hI'⟩ := List.exists_mem_of_ne_nil _ hplaces.ne_nil
    obtain rfl := becomes_eq_alloca ha
    exact ⟨I', hI', fun c N hc => absurd hc (by simp [Inst.site]),
      fun v hv => absurd hv List.not_mem_nil⟩
  · exact ⟨_, hmem, reaches_becomes I hwrap⟩

theorem reaches_term (t : Terminator)
    (hwrap : ∀ N ∈ t.operands.flatMap Val.funcs, N ∈ allocNames → M.HasWrapper N) :
    Reaches M t.site (t.mapVals M.after).site t.operands (t.mapVals M.after).operands where
  address := by
    rw [Terminator.operands_mapVals]
    exact reaches_address hwrap fun _ hv => hv
  call c N hsite hN halloc := by
    cases t with
    | invoke dst c' =>
      obtain rfl := Option.some.inj hsite
      exact reaches_kept hN (hwrap N (directCallee_mem_uses hN) halloc)
    | _ => exact absurd hsite (by simp [Terminator.site])

theorem forall₂_imp_mem {α β : Type} {R S : α → β → Prop} {l : List α} {l' : List β}
    (h : List.Forall₂ R l l') (hRS : ∀ a ∈ l, ∀ b, R a b → S a b) : List.Forall₂ S l l' := by
  induction h with
  | nil => exact .nil
  | cons hR _ ih =>
    exact .cons (hRS _ List.mem_cons_self _ hR)
      (ih fun a ha => hRS a (List.mem_cons_of_mem _ ha))

/-- **Allocator redirection is complete exactly if what the functions outside the runtime
still name of the allocation functions, once their calls are redirected, has a wrapper for
its address.** -/
theorem redirection_complete_iff (cfg : Config) (M : Module) : RedirectionComplete cfg M ↔
    ∀ F ∈ M.functions, isRuntimeName F.name = false →
      ∀ N ∈ allocNames, N ∈ F.left cfg → M.HasWrapper N := by
  constructor
  · intro h F hF hname N halloc hleft
    by_contra hno
    obtain ⟨i, hi⟩ := List.getElem?_of_mem hF
    have hfinished : isRuntimeName (M.finished cfg F).name = false := by
      rw [(grows_run cfg M).name F]
      exact hname
    refine h.noneLeft _ (List.mem_of_getElem? (getElem?_run hi)) hfinished N halloc ?_
    exact (mem_uses_finished hname (isRuntimeName_allocNames halloc)).mpr ⟨hleft, hno⟩
  · intro hcond
    refine ⟨fun F' hF' hname N halloc huse => ?_, fun i F hi hname => ?_⟩
    · rcases mem_run hF' with ⟨F, hF, rfl⟩ | hquiet
      · rw [(grows_run cfg M).name F] at hname
        obtain ⟨hleft, hno⟩ :=
          (mem_uses_finished hname (isRuntimeName_allocNames halloc)).mp huse
        exact hno (hcond F hF hname N halloc hleft)
      · rw [hquiet.name] at hname
        exact absurd hname (by decide)
    · refine ⟨_, getElem?_run hi, (grows_run cfg M).name F,
        forall₂_imp_mem (blocks_finished hname) fun B hB B' hfinished => ?_⟩
      have hwrap : ∀ N ∈ B.insts.flatMap (fun I =>
          (I.passedOn (cfg.skipInstr F)).flatMap Val.funcs) ++ B.term.operands.flatMap Val.funcs,
          N ∈ allocNames → M.HasWrapper N := fun N hN halloc =>
        hcond F (List.mem_of_getElem? hi) hname N halloc (List.mem_flatMap.mpr ⟨B, hB, hN⟩)
      obtain ⟨segs, tail, hinsts, hsegs, -⟩ := hfinished.insts
      refine ⟨⟨segs, tail, hinsts, forall₂_imp_mem hsegs fun I hI seg hplaces => ?_⟩, ?_⟩
      · exact reaches_places hplaces fun N hN =>
          hwrap N (List.mem_append_left _ (List.mem_flatMap.mpr ⟨I, hI, hN⟩))
      · rw [hfinished.term]
        exact reaches_term B.term fun N hN => hwrap N (List.mem_append_right _ hN)

end Reach

/-- A function that allocates where an exception is caught: `operator new` is invoked. -/
def invokeModule : Module :=
  ⟨[⟨"make", false, [⟨[], .invoke (some 0) ⟨funcAddr "_Znwm", true, [constInt 64 8]⟩⟩]⟩,
    ⟨"_Znwm", false, []⟩], [], []⟩

/-- An invoke of `operator new` is left as it is. -/
theorem redirection_not_complete : ¬ RedirectionComplete plainConfig invokeModule := by
  intro h
  have hleft : ∃ F ∈ (run plainConfig invokeModule).functions,
      isRuntimeName F.name = false ∧ "_Znwm" ∈ allocNames ∧ "_Znwm" ∈ F.uses := by
    decide +kernel
  obtain ⟨F, hF, hname, halloc, huse⟩ := hleft
  exact h.noneLeft F hF hname "_Znwm" halloc huse

end Redzone.Pass.AddressMode
