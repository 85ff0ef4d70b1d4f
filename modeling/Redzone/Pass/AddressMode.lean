/-
  Pass/AddressMode.lean --- the address mode of the compiler pass (`RedzonePass::run`).

  The pass declares the runtime, wraps globals, goes over the functions and last replaces
  the addresses of allocation functions that are left.  Only the third phase goes function
  by function, and leaves `__redzone*` alone; the others go over the whole module.

  Which accesses are checked and which allocas are wrapped is decided as in `Stack.Body`.
  The inline test before an access is one instruction here.
-/
import Redzone.Pass.Modules

set_option autoImplicit false

namespace Redzone.Pass.AddressMode

open Redzone.Foundation
open Redzone.Pass (Value TypeSize DebugLoc startsWith kRedzone stackTotal globalWrapper)
open Redzone.Stack (skipped)

/-! ## Calls that are rebuilt -/

/-- An argument of the new call, from the arguments of the old one. -/
inductive Forward where
  | arg (i : ℕ)
  | cast (bits i : ℕ)
  deriving DecidableEq, Repr

def Forward.of (args : List Val) : Forward → Val
  | .arg i => getArgOperand args i
  | .cast bits i => zextOrTrunc bits (getArgOperand args i)

/-- How a call is rebuilt: the new callee, its first arguments, whether file and line come
next, and from where on the old arguments follow. -/
structure Redirect where
  callee : String
  front : List Forward
  hasLoc : Bool
  tailStart : Option ℕ
  deriving DecidableEq, Repr

/-- `getLoc`: file and line, or a null pointer and 0. -/
def locArgs : Option DebugLoc → List Val
  | some loc => [.atom (.str loc.filename), constInt 32 loc.line]
  | none => [.atom .null, constInt 32 0]

/-- What is passed on of the arguments. -/
def Redirect.forwarded (r : Redirect) (args : List Val) : List Val :=
  r.front.map (Forward.of args) ++ r.tailStart.elim [] args.drop

/-- The new call. -/
def Redirect.rebuild (r : Redirect) (args : List Val) (loc : Option DebugLoc) : CallSite :=
  ⟨funcAddr r.callee, true,
    r.front.map (Forward.of args) ++ (if r.hasLoc then locArgs loc else []) ++
      r.tailStart.elim [] args.drop⟩

/-- A call with the leading arguments and the location. -/
def toAlloc (callee : String) (args : List ℕ) : Redirect :=
  ⟨callee, args.map .arg, true, none⟩

/-- `setCalledFunction`. -/
def swapCallee (callee : String) : Redirect := ⟨callee, [], false, some 0⟩

/-- `deleteCalls`: just the pointer. -/
def toFree : Redirect := ⟨"__redzone_free", [.arg 0], false, none⟩

/-- `mallocCalls` to `deleteCalls`.  The operators are Itanium-mangled. -/
def allocRedirects : List (String × Redirect) :=
  [("malloc", toAlloc "__redzone_malloc" [0]),
   ("calloc", toAlloc "__redzone_calloc" [0, 1]),
   ("realloc", toAlloc "__redzone_realloc" [0, 1]),
   ("free", swapCallee "__redzone_free"),
   ("aligned_alloc", toAlloc "__redzone_aligned_alloc" [0, 1]),
   ("posix_memalign", toAlloc "__redzone_posix_memalign" [0, 1, 2]),
   ("_Znwm", toAlloc "__redzone_malloc" [0]),
   ("_Znam", toAlloc "__redzone_malloc" [0]),
   ("_ZnwmSt11align_val_t", toAlloc "__redzone_aligned_alloc" [1, 0]),
   ("_ZnamSt11align_val_t", toAlloc "__redzone_aligned_alloc" [1, 0]),
   ("_ZdlPv", toFree),
   ("_ZdaPv", toFree),
   ("_ZdlPvm", toFree),
   ("_ZdaPvm", toFree),
   ("_ZdlPvSt11align_val_t", toFree),
   ("_ZdaPvSt11align_val_t", toFree),
   ("_ZdlPvmSt11align_val_t", toFree),
   ("_ZdaPvmSt11align_val_t", toFree)]

/-- `redirectMemCall`. -/
def redirectMemCall (callee : String) (isSet : Bool) : Redirect :=
  ⟨callee, [.arg 0, if isSet then .cast 32 1 else .arg 1, .cast 64 2], true, none⟩

/-- `redirectStr`. -/
def redirectStr (callee : String) (hasN : Bool) : Redirect :=
  ⟨callee, [.arg 0, .arg 1] ++ (if hasN then [.cast 64 2] else []), true, none⟩

/-- `redirectPrintf`. -/
def redirectPrintf (callee : String) (hasN : Bool) (tailStart : ℕ) : Redirect :=
  ⟨callee, .arg 0 :: (if hasN then [.cast 64 1] else []), true, some tailStart⟩

/-- `memCpyCalls` to `sprintfChkCalls`. -/
def memRedirects : List (String × Redirect) :=
  [("memcpy", redirectMemCall "__redzone_memcpy" false),
   ("__memcpy_chk", redirectMemCall "__redzone_memcpy" false),
   ("memmove", redirectMemCall "__redzone_memmove" false),
   ("__memmove_chk", redirectMemCall "__redzone_memmove" false),
   ("memset", redirectMemCall "__redzone_memset" true),
   ("__memset_chk", redirectMemCall "__redzone_memset" true),
   ("strcpy", redirectStr "__redzone_strcpy" false),
   ("__strcpy_chk", redirectStr "__redzone_strcpy" false),
   ("strcat", redirectStr "__redzone_strcat" false),
   ("__strcat_chk", redirectStr "__redzone_strcat" false),
   ("strncpy", redirectStr "__redzone_strncpy" true),
   ("__strncpy_chk", redirectStr "__redzone_strncpy" true),
   ("strncat", redirectStr "__redzone_strncat" true),
   ("__strncat_chk", redirectStr "__redzone_strncat" true),
   ("strlcpy", redirectStr "__redzone_strlcpy" true),
   ("__strlcpy_chk", redirectStr "__redzone_strlcpy" true),
   ("strlcat", redirectStr "__redzone_strlcat" true),
   ("__strlcat_chk", redirectStr "__redzone_strlcat" true),
   ("snprintf", redirectPrintf "__redzone_snprintf" true 2),
   ("__snprintf_chk", redirectPrintf "__redzone_snprintf" true 4),
   ("sprintf", redirectPrintf "__redzone_sprintf" false 1),
   ("__sprintf_chk", redirectPrintf "__redzone_sprintf" false 3)]

/-- What becomes of a memory intrinsic, whose arguments are its destination, its source or
byte, and its length. -/
def MemKind.redirect : MemKind → Redirect
  | .memcpy => redirectMemCall "__redzone_memcpy" false
  | .memmove => redirectMemCall "__redzone_memmove" false
  | .memset => redirectMemCall "__redzone_memset" true

/-! ## Functions -/

/-- What the pass reads besides the module. -/
structure Config where
  /-- `moduleIgnored` -/
  moduleIgnored : Bool
  /-- `globMatchAny(ignoreFunPats, name)` -/
  ignoreFun : String → Bool
  /-- `stripAndAccumulateConstantOffsets`, in a function, by the number of a pointer. -/
  strip : String → Value → Stack.Base × ℤ

/-- The runtime's functions. -/
def isRuntimeName (name : String) : Bool := startsWith name "__redzone"

/-- `skipInstr`. -/
def Config.skipInstr (cfg : Config) (F : Func) : Bool :=
  F.optsOut || cfg.moduleIgnored || cfg.ignoreFun F.name

/-- Steps 3 and 4: a call of an allocation function is rebuilt. -/
def redirectAlloc : Inst → Inst
  | .call dst CI loc =>
    match CI.getCalledFunction.bind fun N => allocRedirects.lookup N with
    | some r => .call dst (r.rebuild CI.args loc) loc
    | none => .call dst CI loc
  | I => I

/-- The check in front of an access.  Its size is fixed: C and C++ have no other. -/
def accessCheck (ptr : Val) (size : TypeSize) (isWrite : Bool) (loc : Option DebugLoc) : Inst :=
  let bytes := match size with
    | .fixed bytes => bytes
    | .scalable bytes => bytes
  .check ⟨funcAddr "__redzone_check", true,
    [ptr, constInt 64 bytes, constInt 32 (if isWrite then 1 else 0)] ++ locArgs loc⟩

/-- A call of `StackEnter` or `StackLeave` for a wrapped alloca. -/
def stackHook (callee : String) (a : Stack.Alloca) (Sz : ℕ) : Inst :=
  .call none ⟨funcAddr callee, true, [.atom (.padded a.id), constInt 64 Sz]⟩ none

/-- Steps 1 and 2 and what follows them, at place `k` of a block: an alloca is wrapped, an
access checked, and a memory, string or format function goes to its wrapper. -/
def instrumentInst (strip : Value → Stack.Base × ℤ) (insts : List Inst) (k : ℕ) :
    Inst → List Inst
  | .load dst ptr size loc =>
    if skipped strip (insts.map Inst.shape) k then [.load dst ptr size loc]
    else [accessCheck ptr size false loc, .load dst ptr size loc]
  | .store value ptr size loc =>
    if skipped strip (insts.map Inst.shape) k then [.store value ptr size loc]
    else [accessCheck ptr size true loc, .store value ptr size loc]
  | .alloca a =>
    match a.wrapped with
    | none => [.alloca a]
    | some Sz =>
      [.padded a.id (stackTotal Sz),
       .other (some a.id) [.atom (.padded a.id), constInt 64 kRedzone],
       stackHook "__redzone_stack_enter" a Sz]
  | .mem kind dest src len loc => [.call none (kind.redirect.rebuild [dest, src, len] loc) loc]
  | .call dst CI loc =>
    match CI.getCalledFunction.bind fun N => memRedirects.lookup N with
    | some r => [.call dst (r.rebuild CI.args loc) loc]
    | none => [.call dst CI loc]
  | I => [I]

/-- The allocas of a function that are wrapped, with the sizes of their variables. -/
def Func.stackVars (F : Func) : List (Stack.Alloca × ℕ) :=
  F.blocks.flatMap fun B => B.insts.filterMap fun
    | .alloca a => a.wrapped.map fun Sz => (a, Sz)
    | _ => none

/-- What is inserted before a terminator: a `ret` leaves all variables. -/
def leaves (vars : List (Stack.Alloca × ℕ)) : Terminator → List Inst
  | .ret _ => vars.map fun p => stackHook "__redzone_stack_leave" p.1 p.2
  | _ => []

def instrumentBlock (strip : Value → Stack.Base × ℤ) (vars : List (Stack.Alloca × ℕ))
    (B : Block) : Block :=
  ⟨(B.insts.mapIdx (instrumentInst strip B.insts)).flatten ++ leaves vars B.term, B.term⟩

/-- Steps 3 and 4 in all of a function. -/
def redirectFunction (F : Func) : Func :=
  { F with blocks := F.blocks.map fun B => { B with insts := B.insts.map redirectAlloc } }

/-- The loop body of `run` for one function. -/
def instrumentFunction (cfg : Config) (F : Func) : Func :=
  if F.isDeclaration then F
  else if isRuntimeName F.name then F -- never instrument the runtime
  else if cfg.skipInstr F then redirectFunction F
  else
    { redirectFunction F with
      blocks := (redirectFunction F).blocks.map
        (instrumentBlock (cfg.strip F.name) (redirectFunction F).stackVars) }

/-! ## Globals -/

/-- A global that is wrapped: whether it is external, and the bytes it has. -/
def Global.target (G : Global) : Option (Bool × ℕ) :=
  if G.init.isNone || G.isConstant || G.isThreadLocal then none
  else if G.hasSection || G.hasComdat || G.isExternallyInitialized then none
  else if startsWith G.name "llvm." || startsWith G.name "__redzone" then none
  else
    let isExternal := match G.linkage with
      | .local => some false
      | .external => some true
      | .other => none
    match isExternal, G.size with
    | some isExternal, some (.fixed S) =>
      if kRedzone < G.align.getD 0 then none else some (isExternal, S)
    | _, _ => none

/-- `targets`: the name of the global, whether it is external, and its bytes. -/
def Module.targets (M : Module) : List (String × Bool × ℕ) :=
  M.globals.filterMap fun G => G.target.map fun t => (G.name, t)

/-- `DataPtr`: the field of the wrapper with the data. -/
def dataPtr (name : String) (isExternal : Bool) : Val :=
  .app (.app (.atom (.op "getelementptr")) (.atom (.var name)))
    (constInt 32 (if isExternal then 0 else 1))

/-- `Init`: the data in front of zeros, or between zeros. -/
def wrappedInit (isExternal : Bool) (data : Val) : Val :=
  let zeros : Val := .atom (.op "zeroinitializer")
  let struct : Val := .atom (.op "struct")
  if isExternal then .app (.app struct data) zeros
  else .app (.app (.app struct zeros) data) zeros

/-- The global `NG` that takes the place and the name of one with red zones around it. -/
def wrapper (G : Global) (isExternal : Bool) (S : ℕ) : Global :=
  { G with
    isConstant := false
    size := some (.fixed (globalWrapper isExternal S).total)
    align := some (max kRedzone (G.align.getD 1))
    init := G.init.map (wrappedInit isExternal) }

/-- The body of the loop over `targets`. -/
def wrapGlobal (M : Module) (t : String × Bool × ℕ) : Module :=
  let new := (M.globals.filter fun G => G.name == t.1).map fun G => wrapper G t.2.1 t.2.2
  let old := M.globals.filter fun G => !(G.name == t.1)
  Module.replaceAllUsesWith { M with globals := old ++ new } (.var t.1) (dataPtr t.1 t.2.1)

/-- The call of `__redzone_global_ctor` that registers a wrapped global. -/
def registerCall (t : String × Bool × ℕ) : Inst :=
  let callee := if t.2.1 then "__redzone_global_register_right" else "__redzone_global_register"
  .call none ⟨funcAddr callee, true, [dataPtr t.1 t.2.1, constInt 64 t.2.2]⟩ none

/-- `appendToGlobalCtors`, with the constructor that registers the globals. -/
def addGlobalCtor (toRegister : List (String × Bool × ℕ)) (M : Module) : Module :=
  if toRegister.isEmpty then M
  else
    let Ctor := M.uniqueName "__redzone_global_ctor"
    { M with
      functions := M.functions ++ [⟨Ctor, false, [⟨toRegister.map registerCall, .ret []⟩]⟩]
      ctors := M.ctors ++ [(0, funcAddr Ctor)] }

/-- The phase over the globals. -/
def wrapGlobals (M : Module) : Module :=
  addGlobalCtor M.targets (M.targets.foldl wrapGlobal M)

/-! ## The pass -/

/-- The functions that every module gets a declaration of. -/
def runtimeNames : List String :=
  ["__redzone_check", "__redzone_malloc", "__redzone_free", "__redzone_stack_enter",
   "__redzone_stack_leave", "__redzone_calloc", "__redzone_realloc",
   "__redzone_aligned_alloc", "__redzone_posix_memalign", "__redzone_memcpy",
   "__redzone_memmove", "__redzone_memset", "__redzone_strcpy", "__redzone_strcat",
   "__redzone_strncpy", "__redzone_strncat", "__redzone_strlcpy", "__redzone_strlcat",
   "__redzone_snprintf", "__redzone_sprintf", "__redzone_global_register",
   "__redzone_global_register_right"]

/-- The phase of declarations. -/
def declareRuntime (M : Module) : Module :=
  (runtimeNames.foldl Module.getOrInsertFunction M).getOrInsertGlobal "__redzone_shadow_base"

/-- The phase over the functions. -/
def instrumentFunctions (cfg : Config) (M : Module) : Module :=
  { M with functions := M.functions.map (instrumentFunction cfg) }

/-- `kAllocPtr`: allocation function to malloc-compatible wrapper. -/
def kAllocPtr : List (String × String) :=
  [("malloc", "__redzone_malloc_plain"),
   ("calloc", "__redzone_calloc_plain"),
   ("realloc", "__redzone_realloc_plain"),
   ("free", "__redzone_free")]

/-- The body of the loop over `kAllocPtr`. -/
def redirectPointer (M : Module) (R : String × String) : Module :=
  if !(M.getFunction R.1).isSome || M.useEmpty R.1 then M
  else (M.getOrInsertFunction R.2).replaceAllUsesWith (.func R.1) (funcAddr R.2)

/-- `RedzonePass::run`. -/
def run (cfg : Config) (M : Module) : Module :=
  kAllocPtr.foldl redirectPointer (instrumentFunctions cfg (wrapGlobals (declareRuntime M)))

end Redzone.Pass.AddressMode
