/-
  Pass/RaceMode.lean --- the race mode of the compiler pass (`runRaceMode` of
  `src/RedzonePass.cpp`).

  A module is a list of functions, a function a list of basic blocks, a block a list
  of instructions and one terminator.  An invoke is a terminator, so it can only stand
  at the end of a block.  Of an instruction the model keeps what the pass reads: the
  pointer operand, the store size of the accessed type, whether the access is atomic,
  the debug location, and the callee and arguments of a call.

  The two loops of the pass over a function are `redirect` (calls of the pthread
  functions go to their wrappers) and `instrument` (hooks around memory accesses).
-/
import Mathlib.Tactic

set_option autoImplicit false

namespace Redzone.Pass

/-! ## Modules -/

/-- An SSA value. -/
abbrev Value : Type := ℕ

/-- `TypeSize`: a number of bytes, or one only known up to a factor. -/
inductive TypeSize where
  | fixed (bytes : ℕ)
  | scalable (bytes : ℕ)
  deriving DecidableEq, Repr

/-- `DebugLoc`. -/
structure DebugLoc where
  filename : String
  line : ℕ
  deriving DecidableEq, Repr

/-- What a call is given. -/
inductive Arg where
  | value (v : Value)
  | i64 (n : ℕ)
  | i32 (n : ℕ)
  /-- A global string. -/
  | str (s : String)
  | null
  deriving DecidableEq, Repr

/-- The called operand: a function, or anything else a call can go through. -/
inductive Operand where
  | function (name : String)
  | indirect (v : Value)
  deriving DecidableEq, Repr

/-- A call or invoke. -/
structure CallSite where
  callee : Operand
  /-- The function type of the call is that of the function it names. -/
  typeMatches : Bool
  args : List Arg
  deriving DecidableEq, Repr

/-- The function a call names, whatever its type. -/
def CallSite.directCallee (c : CallSite) : Option String :=
  match c.callee with
  | .function name => some name
  | .indirect _ => none

/-- `getCalledFunction`: nothing for an indirect call, or if the signature of the
function is not that of the call. -/
def CallSite.getCalledFunction (c : CallSite) : Option String :=
  if c.typeMatches then c.directCallee else none

/-- `setCalledFunction`, on a function that `getOrInsertFunction` has declared with the
type of the original callee. -/
def CallSite.setCalledFunction (c : CallSite) (target : String) : CallSite :=
  { c with callee := .function target, typeMatches := true }

/-- An instruction that does not end a block. -/
inductive Inst where
  | load (ptr : Value) (size : TypeSize) (isAtomic : Bool) (loc : Option DebugLoc)
  | store (ptr : Value) (size : TypeSize) (isAtomic : Bool) (loc : Option DebugLoc)
  | atomicRMW (ptr : Value)
  | atomicCmpXchg (ptr : Value)
  | call (site : CallSite)
  | other
  deriving DecidableEq, Repr

/-- The instruction that ends a block. -/
inductive Terminator where
  | invoke (site : CallSite)
  | other
  deriving DecidableEq, Repr

/-- A basic block. -/
structure Block where
  insts : List Inst
  term : Terminator
  deriving DecidableEq, Repr

/-- A function; a declaration has no blocks. -/
structure Func where
  name : String
  /-- `disable_sanitizer_instrumentation` -/
  optsOut : Bool
  blocks : List Block
  deriving DecidableEq, Repr

/-- `isDeclaration`. -/
def Func.isDeclaration (F : Func) : Bool := F.blocks.isEmpty

/-- A module. -/
structure Module where
  functions : List Func
  deriving DecidableEq, Repr

/-- `getOrInsertFunction`: declare a function unless the module has one of that name. -/
def Module.getOrInsertFunction (M : Module) (name : String) : Module :=
  if M.functions.any fun F => F.name == name then M
  else ⟨M.functions ++ [⟨name, false, []⟩]⟩

/-! ## The synchronization table -/

/-- `StringRef::starts_with`. -/
def startsWith (s p : String) : Bool := p.toList.isPrefixOf s.toList

/-- `StringRef::consume_front`: what is left after the prefix, if it is one. -/
def consumeFront (s p : String) : Option String :=
  if startsWith s p then some (String.ofList (s.toList.drop p.length)) else none

/-- `kSync`: pthread primitive to race-runtime wrapper. -/
def kSync : List (String × String) :=
  [("pthread_create", "rz_rt_pthread_create"),
   ("pthread_join", "rz_rt_pthread_join"),
   ("pthread_mutex_lock", "rz_rt_pthread_mutex_lock"),
   ("pthread_mutex_unlock", "rz_rt_pthread_mutex_unlock"),
   ("pthread_mutex_trylock", "rz_rt_pthread_mutex_trylock"),
   ("pthread_rwlock_rdlock", "rz_rt_pthread_rwlock_rdlock"),
   ("pthread_rwlock_wrlock", "rz_rt_pthread_rwlock_wrlock"),
   ("pthread_rwlock_tryrdlock", "rz_rt_pthread_rwlock_tryrdlock"),
   ("pthread_rwlock_trywrlock", "rz_rt_pthread_rwlock_trywrlock"),
   ("pthread_rwlock_unlock", "rz_rt_pthread_rwlock_unlock"),
   ("pthread_cond_wait", "rz_rt_pthread_cond_wait"),
   ("pthread_cond_timedwait", "rz_rt_pthread_cond_timedwait")]

/-- The name without the assembler label of macOS headers: `"\x01_f"` is `f`. -/
def plainName (N : String) : String :=
  match consumeFront N "\x01" with
  | some N => (consumeFront N "_").getD N
  | none => N

/-- `syncTarget`: the wrapper of a pthread primitive. -/
def syncTarget (N : String) : Option String := kSync.lookup (plainName N)

/-! ## The pass -/

/-- A call of a runtime function. -/
def Inst.callTo (name : String) (args : List Arg) : Inst :=
  .call ⟨.function name, true, args⟩

/-- `getLoc`: file and line, or a null pointer and 0. -/
def getLoc : Option DebugLoc → Arg × Arg
  | some loc => (.str loc.filename, .i32 loc.line)
  | none => (.null, .i32 0)

/-- `emitAccess`: a hook for a plain access, unless the size of its type is scalable. -/
def emitAccess (ptr : Value) (size : TypeSize) (isWrite : Bool) (loc : Option DebugLoc) :
    List Inst :=
  match size with
  | .scalable _ => []
  | .fixed bytes =>
    [.callTo (if isWrite then "rz_rt_write" else "rz_rt_read")
      [.value ptr, .i64 bytes, (getLoc loc).1, (getLoc loc).2]]

def atomicRelease (ptr : Value) : Inst := .callTo "rz_rt_atomic_release" [.value ptr]

def atomicAcquire (ptr : Value) : Inst := .callTo "rz_rt_atomic_acquire" [.value ptr]

/-- What is inserted before an instruction. -/
def hooksBefore : Inst → List Inst
  | .load ptr size false loc => emitAccess ptr size false loc
  | .store ptr size false loc => emitAccess ptr size true loc
  | .store ptr _ true _ => [atomicRelease ptr]
  | .atomicRMW ptr => [atomicRelease ptr]
  | .atomicCmpXchg ptr => [atomicRelease ptr]
  | _ => []

/-- What is inserted after an instruction. -/
def hooksAfter : Inst → List Inst
  | .load ptr _ true _ => [atomicAcquire ptr]
  | .atomicRMW ptr => [atomicAcquire ptr]
  | .atomicCmpXchg ptr => [atomicAcquire ptr]
  | _ => []

/-- The body of the loop over `mem`. -/
def instrument (I : Inst) : List Inst := hooksBefore I ++ I :: hooksAfter I

/-- The body of the loop over `syncCalls`, on a call that was collected, and any other
instruction as it is. -/
def redirect : Inst → Inst
  | .call CI =>
    match CI.getCalledFunction.bind syncTarget with
    | some target => .call (CI.setCalledFunction target)
    | none => .call CI
  | I => I

/-- The runtimes themselves are left alone. -/
def isRuntimeName (FN : String) : Bool :=
  startsWith FN "__redzone" || startsWith FN "rz_"

/-- The loop body of `runRaceMode` for one function. -/
def raceFunction (F : Func) : Func :=
  if F.isDeclaration then F
  else if isRuntimeName F.name then F
  else
    let blocks := F.blocks.map fun BB => { BB with insts := BB.insts.map redirect }
    if F.optsOut then { F with blocks := blocks }
    else { F with
      blocks := blocks.map fun BB => { BB with insts := BB.insts.flatMap instrument } }

/-- The wrappers the calls of a function are redirected to, in order. -/
def wrappersUsed (F : Func) : List String :=
  if F.isDeclaration || isRuntimeName F.name then []
  else F.blocks.flatMap fun BB => BB.insts.filterMap fun
    | .call CI => CI.getCalledFunction.bind syncTarget
    | _ => none

/-- The hooks that every module gets a declaration of. -/
def hookNames : List String :=
  ["rz_rt_read", "rz_rt_write", "rz_rt_atomic_acquire", "rz_rt_atomic_release"]

/-- `runRaceMode`.  New declarations go to the end of the module, so the functions it
had stay where they were. -/
def runRaceMode (M : Module) : Module :=
  let M₁ := hookNames.foldl Module.getOrInsertFunction M
  (M₁.functions.flatMap wrappersUsed).foldl Module.getOrInsertFunction
    ⟨M₁.functions.map raceFunction⟩

/-- A pthread function goes to its wrapper also under its macOS label. -/
example : syncTarget "\x01_pthread_join" = some "rz_rt_pthread_join" := by decide

/-! ## What the pass counts -/

/-- The counters of the pass. -/
structure RaceStats where
  accesses : ℕ
  atomics : ℕ
  syncs : ℕ
  deriving DecidableEq, Repr

/-- The data accesses hooked at an instruction. -/
def accessCount : Inst → ℕ
  | .load ptr size false loc => (emitAccess ptr size false loc).length
  | .store ptr size false loc => (emitAccess ptr size true loc).length
  | _ => 0

/-- The atomic operations at an instruction. -/
def atomicCount : Inst → ℕ
  | .load _ _ true _ => 1
  | .store _ _ true _ => 1
  | .atomicRMW _ => 1
  | .atomicCmpXchg _ => 1
  | _ => 0

/-- The counters of one function: an opted-out one counts only its redirected calls. -/
def raceStats (F : Func) : RaceStats :=
  if F.isDeclaration || isRuntimeName F.name then ⟨0, 0, 0⟩
  else
    let insts := F.blocks.flatMap Block.insts
    { accesses := if F.optsOut then 0 else (insts.map accessCount).sum
      atomics := if F.optsOut then 0 else (insts.map atomicCount).sum
      syncs := (wrappersUsed F).length }

/-- `Changed`: the pass says that it has preserved all analyses unless one of its
counters is positive. -/
def raceChanged (M : Module) : Bool :=
  M.functions.any fun F => raceStats F != ⟨0, 0, 0⟩

/-- Where nothing is counted at an instruction, no hook is inserted. -/
theorem instrument_of_count_zero {I : Inst} (haccess : accessCount I = 0)
    (hatomic : atomicCount I = 0) : instrument I = [I] := by
  cases I with
  | load ptr size isAtomic loc =>
      cases isAtomic with
      | false => simp [instrument, hooksBefore, hooksAfter, List.eq_nil_of_length_eq_zero haccess]
      | true => simp [atomicCount] at hatomic
  | store ptr size isAtomic loc =>
      cases isAtomic with
      | false => simp [instrument, hooksBefore, hooksAfter, List.eq_nil_of_length_eq_zero haccess]
      | true => simp [atomicCount] at hatomic
  | atomicRMW ptr => simp [atomicCount] at hatomic
  | atomicCmpXchg ptr => simp [atomicCount] at hatomic
  | call c => rfl
  | other => rfl

/-- A call that is not counted is left alone. -/
theorem redirect_of_not_sync {I : Inst}
    (h : ∀ c, I = .call c → c.getCalledFunction.bind syncTarget = none) : redirect I = I := by
  cases I with
  | call c => simp [redirect, h c rfl]
  | _ => rfl

theorem flatMap_instrument_eq_self {insts : List Inst}
    (h : ∀ I ∈ insts, accessCount I = 0 ∧ atomicCount I = 0) :
    insts.flatMap instrument = insts := by
  induction insts with
  | nil => rfl
  | cons I rest ih =>
      have hI := h I (List.mem_cons_self ..)
      rw [List.flatMap_cons, instrument_of_count_zero hI.1 hI.2,
        ih fun J hJ => h J (List.mem_cons_of_mem I hJ), List.singleton_append]

/-- A function without calls to redirect. -/
theorem map_redirect_eq_self {F : Func} (hrun : (F.isDeclaration || isRuntimeName F.name) = false)
    (h : wrappersUsed F = []) : ∀ BB ∈ F.blocks, BB.insts.map redirect = BB.insts := by
  intro BB hBB
  have hone : ∀ I ∈ BB.insts, redirect I = id I := by
    intro I hI
    apply redirect_of_not_sync
    rintro c rfl
    by_contra hne
    obtain ⟨target, htarget⟩ := Option.ne_none_iff_exists'.mp hne
    have hused : target ∈ wrappersUsed F := by
      simp only [wrappersUsed, hrun, Bool.false_eq_true, if_false, List.mem_flatMap,
        List.mem_filterMap]
      exact ⟨BB, hBB, .call c, hI, htarget⟩
    simp [h] at hused
  exact (List.map_congr_left hone).trans (List.map_id _)

/-- A function in which nothing is counted is as it was. -/
theorem raceFunction_eq_self {F : Func} (h : raceStats F = ⟨0, 0, 0⟩) : raceFunction F = F := by
  unfold raceFunction
  split
  · rfl
  split
  · rfl
  rename_i hdecl hname
  have hrun : (F.isDeclaration || isRuntimeName F.name) = false := by simp [hdecl, hname]
  simp only [raceStats, hrun, Bool.false_eq_true, if_false, RaceStats.mk.injEq,
    List.length_eq_zero_iff] at h
  obtain ⟨haccess, hatomic, hsync⟩ := h
  have hredirect : (F.blocks.map fun BB => { BB with insts := BB.insts.map redirect }) =
      F.blocks := by
    refine (List.map_congr_left (g := id) fun BB hBB => ?_).trans (List.map_id _)
    rw [map_redirect_eq_self hrun hsync BB hBB]
    rfl
  cases hopt : F.optsOut with
  | true =>
      simp only [hredirect, if_true]
      rw [← hopt]
  | false =>
      simp only [hopt, Bool.false_eq_true, if_false, List.sum_eq_zero_iff, List.mem_map,
        List.mem_flatMap] at haccess hatomic
      have hinstrument :
          (F.blocks.map fun BB => { BB with insts := BB.insts.flatMap instrument }) =
            F.blocks := by
        refine (List.map_congr_left (g := id) fun BB hBB => ?_).trans (List.map_id _)
        rw [flatMap_instrument_eq_self fun I hI =>
          ⟨haccess _ ⟨I, ⟨BB, hBB, hI⟩, rfl⟩, hatomic _ ⟨I, ⟨BB, hBB, hI⟩, rfl⟩⟩]
        rfl
      simp only [hredirect, hinstrument, Bool.false_eq_true, if_false]
      rw [← hopt]

/-- A pass that reports no change has left every function as it was. -/
theorem raceFunction_of_not_changed {M : Module} (h : raceChanged M = false) :
    ∀ F ∈ M.functions, raceFunction F = F := by
  intro F hF
  have hstats := List.any_eq_false.mp h F hF
  exact raceFunction_eq_self (by simpa using hstats)

end Redzone.Pass
