/-
  Pass/RaceBehaviour.lean --- race mode keeps what a function does, and makes the runtime
  hear of all of it.

  Running an instruction is an event: what it is, with the values of its operands.  An
  instruction defines its own result, which is none of its operands, and a hook returns
  void; what is defined is otherwise up to the outside, and so is where a block goes.

  After the pass a function does what it has done before, with hooks around the accesses
  and its calls of pthread functions going to their wrappers (`RaceEvent.raced`).  What it
  makes the race runtime do by that are the scripts of the calls that the events ask for
  (`RaceEvent.asks`), in the order of the program.
-/
import Redzone.Foundation.Expansion
import Redzone.Pass.RaceModeSync
import Redzone.Runtime.Wrappers

set_option autoImplicit false

namespace Redzone.Pass

open Redzone.Foundation
open Redzone.Runtime (Call Script Micro AtomicKind)

/-! ## Events -/

/-- An argument that has a value. -/
inductive Datum where
  | value (d : ℕ)
  | i64 (n : ℕ)
  | i32 (n : ℕ)
  | str (s : String)
  | null
  deriving DecidableEq, Repr

/-- What a call goes to. -/
inductive Target where
  | function (name : String)
  | indirect (d : ℕ)
  deriving DecidableEq, Repr

def Arg.datum (ρ : Value → ℕ) : Arg → Datum
  | .value v => .value (ρ v)
  | .i64 n => .i64 n
  | .i32 n => .i32 n
  | .str s => .str s
  | .null => .null

def Operand.target (ρ : Value → ℕ) : Operand → Target
  | .function name => .function name
  | .indirect v => .indirect (ρ v)

/-- An instruction that has run, with the values of its operands. -/
inductive RaceEvent where
  | load (ptr : ℕ) (size : TypeSize) (isAtomic : Bool) (loc : Option DebugLoc)
  | store (ptr : ℕ) (size : TypeSize) (isAtomic : Bool) (loc : Option DebugLoc)
  | atomicRMW (ptr : ℕ)
  | atomicCmpXchg (ptr : ℕ)
  | call (callee : Target) (typeMatches : Bool) (args : List Datum)
  | other
  deriving DecidableEq, Repr

def CallSite.raceEvent (ρ : Value → ℕ) (c : CallSite) : RaceEvent :=
  .call (c.callee.target ρ) c.typeMatches (c.args.map (Arg.datum ρ))

def Inst.raceEvent (ρ : Value → ℕ) : Inst → RaceEvent
  | .load ptr size isAtomic loc => .load (ρ ptr) size isAtomic loc
  | .store ptr size isAtomic loc => .store (ρ ptr) size isAtomic loc
  | .atomicRMW ptr => .atomicRMW (ρ ptr)
  | .atomicCmpXchg ptr => .atomicCmpXchg (ρ ptr)
  | .call site => site.raceEvent ρ
  | .other => .other

def Terminator.raceEvent (ρ : Value → ℕ) : Terminator → RaceEvent
  | .invoke site => site.raceEvent ρ
  | .other => .other

/-- The pointer operand of an access. -/
def Inst.pointer : Inst → Option Value
  | .load ptr _ _ _ | .store ptr _ _ _ | .atomicRMW ptr | .atomicCmpXchg ptr => some ptr
  | .call _ | .other => none

/-- A call of a hook. -/
def Inst.isHook : Inst → Bool
  | .call site => site.getCalledFunction.any fun N => hookNames.contains N
  | _ => false

/-- What the values may be after an instruction. -/
def Inst.Defines (I : Inst) (ρ ρ' : Value → ℕ) : Prop :=
  if I.isHook then ρ' = ρ else ∀ p ∈ I.pointer, ρ' p = ρ p

/-- An instruction runs. -/
def Inst.Fires (I : Inst) (ρ : Value → ℕ) (e : RaceEvent) (ρ' : Value → ℕ) : Prop :=
  e = I.raceEvent ρ ∧ I.Defines ρ ρ'

/-- What a visit to a block does. -/
structure RaceVisit where
  block : ℕ
  events : List RaceEvent
  last : RaceEvent
  deriving DecidableEq, Repr

/-- A visit to block `b` of a function. -/
def Func.Visits (F : Func) (b : ℕ) (ρ : Value → ℕ) (v : RaceVisit) (_ : Value → ℕ) : Prop :=
  ∃ B, F.blocks[b]? = some B ∧ v.block = b ∧
    ∃ m, Performs Inst.Fires B.insts ρ v.events m ∧ v.last = B.term.raceEvent m

/-- A behaviour of a function from block `b` on, where the outside goes from block to block
by `succ`. -/
def Func.Behaves (succ : ℕ → RaceEvent → ℕ → Prop) (F : Func) :
    ℕ → (Value → ℕ) → List RaceVisit → Prop :=
  Walk F.Visits fun v => succ v.block v.last

/-! ## What becomes of an event -/

/-- File and line as a hook gets them. -/
def locData : Option DebugLoc → Datum × Datum
  | some loc => (.str loc.filename, .i32 loc.line)
  | none => (.null, .i32 0)

/-- The hook of a plain access. -/
def accessEvents (ptr : ℕ) (size : TypeSize) (isWrite : Bool) (loc : Option DebugLoc) :
    List RaceEvent :=
  match size with
  | .scalable _ => []
  | .fixed bytes =>
    [.call (.function (if isWrite then "rz_rt_write" else "rz_rt_read")) true
      [.value ptr, .i64 bytes, (locData loc).1, (locData loc).2]]

def releaseEvent (ptr : ℕ) : RaceEvent :=
  .call (.function "rz_rt_atomic_release") true [.value ptr]

def acquireEvent (ptr : ℕ) : RaceEvent :=
  .call (.function "rz_rt_atomic_acquire") true [.value ptr]

namespace RaceEvent

/-- The call of a pthread function goes to its wrapper. -/
def redirected : RaceEvent → RaceEvent
  | .call (.function N) true args => .call (.function ((syncTarget N).getD N)) true args
  | e => e

def before : RaceEvent → List RaceEvent
  | .load ptr size false loc => accessEvents ptr size false loc
  | .store ptr size false loc => accessEvents ptr size true loc
  | .store ptr _ true _ | .atomicRMW ptr | .atomicCmpXchg ptr => [releaseEvent ptr]
  | _ => []

def after : RaceEvent → List RaceEvent
  | .load ptr _ true _ | .atomicRMW ptr | .atomicCmpXchg ptr => [acquireEvent ptr]
  | _ => []

/-- What happens in the place of an event. -/
def raced (optsOut : Bool) (e : RaceEvent) : List RaceEvent :=
  if optsOut then [e.redirected] else e.before ++ e.redirected :: e.after

end RaceEvent

/-- What becomes of a visit.  The runtimes are left alone. -/
def Func.raced (F : Func) (v : RaceVisit) : RaceVisit :=
  if isRuntimeName F.name then v
  else { v with events := v.events.flatMap (RaceEvent.raced F.optsOut) }

/-! ## What the runtime hears -/

/-- The word that is passed. -/
def Datum.word : Datum → Option ℕ
  | .value d => some d
  | .i64 n | .i32 n => some n
  | .null => some 0
  | .str _ => none

/-- The file that is passed. -/
def Datum.file : Datum → Option (Option String)
  | .str s => some (some s)
  | .null => some none
  | _ => none

/-- The functions of the runtime that are about one object, with the place of the object
among their arguments. -/
def objectCalls : List (String × ℕ × (ℕ → Call)) :=
  [("rz_rt_mutex_lock", 0, .mutexLock),
   ("rz_rt_mutex_unlock", 0, .mutexUnlock),
   ("rz_rt_atomic_acquire", 0, .mutexLock),
   ("rz_rt_atomic_release", 0, .mutexUnlock),
   ("rz_rt_pthread_create", 0, fun _ => .create),
   ("rz_rt_pthread_join", 0, .join),
   ("rz_rt_pthread_mutex_lock", 0, .pthreadMutexLock),
   ("rz_rt_pthread_mutex_unlock", 0, .pthreadMutexUnlock),
   ("rz_rt_pthread_mutex_trylock", 0, .pthreadMutexTrylock),
   ("rz_rt_pthread_rwlock_rdlock", 0, .rwlockRdlock),
   ("rz_rt_pthread_rwlock_wrlock", 0, .rwlockWrlock),
   ("rz_rt_pthread_rwlock_tryrdlock", 0, .rwlockTryrdlock),
   ("rz_rt_pthread_rwlock_trywrlock", 0, .rwlockTrywrlock),
   ("rz_rt_pthread_rwlock_unlock", 0, .rwlockUnlock),
   ("rz_rt_pthread_cond_wait", 1, .condWait),
   ("rz_rt_pthread_cond_timedwait", 1, .condTimedwait)]

/-- The functions of the runtime that are about a range. -/
def rangeCalls : List (String × (ℕ → ℕ → Option String → ℤ → Call)) :=
  [("rz_rt_read", .read), ("rz_rt_write", .write)]

/-- The call into the runtime that a call by name is. -/
def heard (N : String) (args : List Datum) : Option Call :=
  match objectCalls.lookup N, rangeCalls.lookup N, args with
  | some (i, call), _, args => (args[i]?.bind Datum.word).map call
  | none, some call, [ptr, .i64 size, file, .i32 line] => do
    return call (← ptr.word) size (← file.file) line
  | _, _, _ => none

namespace RaceEvent

/-- What the runtime does in an event, or the event does on an atomic. -/
def steps : RaceEvent → Script
  | .load ptr _ true _ => [.atomicOp ptr .load]
  | .store ptr _ true _ => [.atomicOp ptr .store]
  | .atomicRMW ptr | .atomicCmpXchg ptr => [.atomicOp ptr .rmw]
  | .call (.function N) _ args => (heard N args).elim [] Call.script
  | _ => []

/-- What a program asks of the runtime by an event. -/
def asks : RaceEvent → List Call
  | .load ptr (.fixed bytes) false loc =>
    [.read ptr bytes (loc.map DebugLoc.filename) (loc.elim 0 fun l => l.line)]
  | .store ptr (.fixed bytes) false loc =>
    [.write ptr bytes (loc.map DebugLoc.filename) (loc.elim 0 fun l => l.line)]
  | .load ptr _ true _ => [.atomic ptr .load]
  | .store ptr _ true _ => [.atomic ptr .store]
  | .atomicRMW ptr | .atomicCmpXchg ptr => [.atomic ptr .rmw]
  | .call (.function N) typeMatches args =>
    (heard (if typeMatches then (syncTarget N).getD N else N) args).toList
  | _ => []

end RaceEvent

/-- The steps of the runtime in a behaviour. -/
def runtimeSteps (T : List RaceVisit) : Script :=
  T.flatMap fun v => v.events.flatMap RaceEvent.steps ++ v.last.steps

/-- The steps that the events of a behaviour ask for. -/
def askedSteps (T : List RaceVisit) : Script :=
  T.flatMap fun v => (v.events.flatMap RaceEvent.asks).flatMap Call.script ++ v.last.steps

/-! ## Instructions -/

section Instructions

variable {I J : Inst} {ρ ρ' : Value → ℕ} {out : List RaceEvent} {hooks : List Inst}

theorem isHook_callTo {name : String} {args : List Arg} (h : name ∈ hookNames) :
    (Inst.callTo name args).isHook = true := by
  show (hookNames.contains name) = true
  exact List.contains_iff_mem.mpr h

theorem hooks_before (I : Inst) : ∀ J ∈ hooksBefore I, J.isHook = true := by
  intro J hJ
  obtain ⟨name, args, hname, rfl⟩ := hook_callTo (Or.inl hJ)
  exact isHook_callTo hname

theorem hooks_after (I : Inst) : ∀ J ∈ hooksAfter I, J.isHook = true := by
  intro J hJ
  obtain ⟨name, args, hname, rfl⟩ := hook_callTo (Or.inr hJ)
  exact isHook_callTo hname

/-- Hooks are called one after the other, and define nothing. -/
theorem performs_hooks (h : ∀ J ∈ hooks, J.isHook = true) :
    Performs Inst.Fires hooks ρ out ρ' ↔ out = hooks.map (Inst.raceEvent ρ) ∧ ρ' = ρ := by
  induction hooks generalizing out with
  | nil => exact performs_nil_iff
  | cons J hooks ih =>
      have hJ : ∀ m, J.Defines ρ m ↔ m = ρ := by
        intro m
        unfold Inst.Defines
        rw [if_pos (h J List.mem_cons_self)]
      have hrest (rest : List RaceEvent) :
          Performs Inst.Fires hooks ρ rest ρ' ↔ rest = hooks.map (Inst.raceEvent ρ) ∧ ρ' = ρ :=
        ih fun K hK => h K (List.mem_cons_of_mem J hK)
      rw [performs_cons_iff, List.map_cons]
      constructor
      · rintro ⟨e, m, rest, rfl, ⟨rfl, hm⟩, htail⟩
        obtain rfl := (hJ m).mp hm
        obtain ⟨rfl, rfl⟩ := (hrest rest).mp htail
        exact ⟨rfl, rfl⟩
      · rintro ⟨rfl, rfl⟩
        exact ⟨_, ρ', _, rfl, ⟨rfl, (hJ ρ').mpr rfl⟩, (hrest _).mpr ⟨rfl, rfl⟩⟩

/-- An instruction leaves its own pointer as it is. -/
theorem pointer_kept {p : Value} (h : I.Defines ρ ρ') (hp : p ∈ I.pointer) : ρ' p = ρ p := by
  unfold Inst.Defines at h
  split at h
  · rw [h]
  · exact h p hp

theorem datum_getLoc (loc : Option DebugLoc) :
    (getLoc loc).1.datum ρ = (locData loc).1 ∧ (getLoc loc).2.datum ρ = (locData loc).2 := by
  cases loc <;> exact ⟨rfl, rfl⟩

theorem map_emitAccess (ptr : Value) (size : TypeSize) (isWrite : Bool) (loc : Option DebugLoc) :
    (emitAccess ptr size isWrite loc).map (Inst.raceEvent ρ) =
      accessEvents (ρ ptr) size isWrite loc := by
  cases size with
  | scalable bytes => rfl
  | fixed bytes =>
      obtain ⟨hfile, hline⟩ := datum_getLoc (ρ := ρ) loc
      simp only [emitAccess, accessEvents, List.map_cons, List.map_nil, Inst.callTo,
        Inst.raceEvent, CallSite.raceEvent, hfile, hline]
      rfl

theorem map_hooksBefore (I : Inst) :
    (hooksBefore I).map (Inst.raceEvent ρ) = (I.raceEvent ρ).before := by
  cases I with
  | load ptr size isAtomic loc =>
      cases isAtomic with
      | false => exact map_emitAccess ptr size false loc
      | true => rfl
  | store ptr size isAtomic loc =>
      cases isAtomic with
      | false => exact map_emitAccess ptr size true loc
      | true => rfl
  | atomicRMW | atomicCmpXchg | call | other => rfl

/-- The hooks behind an instruction get the pointer that it has had. -/
theorem map_hooksAfter (h : I.Defines ρ ρ') :
    (hooksAfter I).map (Inst.raceEvent ρ') = (I.raceEvent ρ).after := by
  have hacquire : ∀ ptr, ptr ∈ I.pointer →
      [(atomicAcquire ptr).raceEvent ρ'] = [acquireEvent (ρ ptr)] := by
    intro ptr hptr
    rw [← pointer_kept h hptr]
    rfl
  cases I with
  | load ptr size isAtomic loc =>
      cases isAtomic with
      | false => rfl
      | true => exact hacquire ptr rfl
  | atomicRMW ptr => exact hacquire ptr rfl
  | atomicCmpXchg ptr => exact hacquire ptr rfl
  | store ptr size isAtomic loc => cases isAtomic <;> rfl
  | call | other => rfl

/-- A function that is no hook may define anything. -/
theorem defines_call {N : String} {args : List Arg} (h : N ∉ hookNames) :
    (Inst.call ⟨.function N, true, args⟩).Defines ρ ρ' := by
  have hhook : (Inst.call ⟨.function N, true, args⟩).isHook = false :=
    Bool.eq_false_iff.mpr fun hany => h (List.contains_iff_mem.mp hany)
  unfold Inst.Defines
  rw [if_neg (by rw [hhook]; exact Bool.false_ne_true)]
  exact fun p hp => absurd hp (by simp [Inst.pointer])

theorem redirect_call (c : CallSite) : redirect (.call c) =
    (c.getCalledFunction.bind syncTarget).elim (.call c) fun target =>
      .call (c.setCalledFunction target) := by
  simp only [redirect]
  cases c.getCalledFunction.bind syncTarget <;> rfl

/-- A call that is redirected is no hook, neither before nor after. -/
theorem redirect_spec (I : Inst) (ρ : Value → ℕ) :
    (redirect I).raceEvent ρ = (I.raceEvent ρ).redirected ∧
      ∀ ρ', (redirect I).Defines ρ ρ' ↔ I.Defines ρ ρ' := by
  cases I with
  | call c =>
      obtain ⟨callee, typeMatches, args⟩ := c
      cases callee with
      | indirect v => cases typeMatches <;> exact ⟨rfl, fun _ => Iff.rfl⟩
      | function N =>
          cases typeMatches with
          | false => exact ⟨rfl, fun _ => Iff.rfl⟩
          | true =>
              have hredirect : redirect (.call ⟨.function N, true, args⟩) =
                  .call ⟨.function ((syncTarget N).getD N), true, args⟩ := by
                have hcallee : (CallSite.mk (.function N) true args).getCalledFunction.bind
                    syncTarget = syncTarget N := rfl
                rw [redirect_call, hcallee]
                cases syncTarget N <;> rfl
              rw [hredirect]
              refine ⟨rfl, fun ρ' => ?_⟩
              cases htarget : syncTarget N with
              | none => rfl
              | some W =>
                  have hN : N ∉ hookNames := fun hmem => by
                    rw [syncTarget_hook hmem] at htarget
                    exact absurd htarget (by simp)
                  exact iff_of_true (defines_call (syncTarget_wrapper htarget).2)
                    (defines_call hN)
  | _ => exact ⟨rfl, fun _ => Iff.rfl⟩

theorem hooks_redirect (I : Inst) : hooksBefore (redirect I) = hooksBefore I ∧
    hooksAfter (redirect I) = hooksAfter I := by
  cases I with
  | call c =>
      rw [redirect_call]
      cases c.getCalledFunction.bind syncTarget <;> exact ⟨rfl, rfl⟩
  | _ => exact ⟨rfl, rfl⟩

/-- What the pass puts in the place of an instruction. -/
def raceSegment (optsOut : Bool) (I : Inst) : List Inst :=
  if optsOut then [redirect I] else instrument (redirect I)

/-- It does what becomes of the event, and nothing else. -/
theorem performs_raceSegment (optsOut : Bool) :
    Performs Inst.Fires (raceSegment optsOut I) ρ out ρ' ↔
      ∃ e, I.Fires ρ e ρ' ∧ out = e.raced optsOut := by
  obtain ⟨hevent, hdefines⟩ := redirect_spec I ρ
  cases optsOut with
  | true =>
      show Performs Inst.Fires [redirect I] ρ out ρ' ↔ _
      rw [performs_singleton_iff]
      constructor
      · rintro ⟨e, rfl, rfl, hdef⟩
        refine ⟨_, ⟨rfl, (hdefines ρ').mp hdef⟩, ?_⟩
        rw [hevent]
        rfl
      · rintro ⟨e, ⟨rfl, hdef⟩, rfl⟩
        exact ⟨_, rfl, hevent.symm, (hdefines ρ').mpr hdef⟩
  | false =>
      obtain ⟨hbefore, hafter⟩ := hooks_redirect I
      show Performs Inst.Fires (hooksBefore (redirect I) ++ redirect I :: hooksAfter (redirect I))
        ρ out ρ' ↔ _
      rw [hbefore, hafter, performs_append_iff]
      constructor
      · rintro ⟨l, m, r, rfl, hl, hr⟩
        obtain ⟨rfl, rfl⟩ := (performs_hooks (hooks_before I)).mp hl
        obtain ⟨e, m', rest, rfl, ⟨rfl, hdef⟩, htail⟩ := performs_cons_iff.mp hr
        obtain ⟨rfl, rfl⟩ := (performs_hooks (hooks_after I)).mp htail
        have hdef := (hdefines _).mp hdef
        refine ⟨_, ⟨rfl, hdef⟩, ?_⟩
        rw [map_hooksBefore, map_hooksAfter hdef, hevent]
        rfl
      · rintro ⟨e, ⟨rfl, hdef⟩, rfl⟩
        refine ⟨_, ρ, _, rfl, (performs_hooks (hooks_before I)).mpr ⟨(map_hooksBefore I).symm, rfl⟩,
          performs_cons_iff.mpr ⟨_, ρ', _, rfl, ⟨hevent.symm, (hdefines ρ').mpr hdef⟩,
            (performs_hooks (hooks_after I)).mpr ⟨(map_hooksAfter hdef).symm, rfl⟩⟩⟩

end Instructions

/-! ## Functions -/

section Functions

variable {F : Func} {ρ ρ' : Value → ℕ} {b : ℕ} {v : RaceVisit}

/-- A block after the pass. -/
def raceBlock (optsOut : Bool) (B : Block) : Block :=
  { B with insts := B.insts.flatMap (raceSegment optsOut) }

/-- The blocks of a function outside the runtimes after the pass. -/
theorem blocks_raceFunction (hF : isRuntimeName F.name = false) :
    (raceFunction F).blocks = F.blocks.map (raceBlock F.optsOut) := by
  unfold raceFunction
  split
  · rename_i hdecl
    rw [List.isEmpty_iff.mp hdecl]
    rfl
  rw [if_neg (by rw [hF]; exact Bool.false_ne_true)]
  cases hopt : F.optsOut with
  | true =>
      refine List.map_congr_left fun B _ => congrArg (Block.mk · B.term) ?_
      show B.insts.map redirect = B.insts.flatMap fun I => [redirect I]
      exact List.map_eq_flatMap
  | false =>
      show (F.blocks.map _).map _ = _
      rw [List.map_map]
      refine List.map_congr_left fun B _ => congrArg (Block.mk · B.term) ?_
      exact List.flatMap_map ..

/-- A visit to a block after the pass. -/
theorem visits_raceFunction (hF : isRuntimeName F.name = false) :
    (raceFunction F).Visits b ρ v ρ' ↔ ∃ u, F.Visits b ρ u ρ' ∧ v = F.raced u := by
  have hsegs (B : Block) (s s' : Value → ℕ) (out : List RaceEvent) :
      Performs Inst.Fires (B.insts.flatMap (raceSegment F.optsOut)) s out s' ↔
        ∃ es, Performs Inst.Fires B.insts s es s' ∧ out = es.flatMap ((·.raced F.optsOut)) :=
    performs_flatMap_iff fun _ _ _ _ => performs_raceSegment F.optsOut
  unfold Func.Visits
  rw [blocks_raceFunction hF]
  constructor
  · rintro ⟨B', hB', hb, m, hperf, hlast⟩
    rw [List.getElem?_map] at hB'
    obtain ⟨B, hB, rfl⟩ := Option.map_eq_some_iff.mp hB'
    obtain ⟨es, hsrc, hevents⟩ := (hsegs B ρ m v.events).mp hperf
    refine ⟨⟨b, es, v.last⟩, ⟨B, hB, rfl, m, hsrc, hlast⟩, ?_⟩
    unfold Func.raced
    rw [if_neg (by rw [hF]; exact Bool.false_ne_true), ← hevents, ← hb]
  · rintro ⟨u, ⟨B, hB, hb, m, hsrc, hlast⟩, rfl⟩
    unfold Func.raced
    rw [if_neg (by rw [hF]; exact Bool.false_ne_true), List.getElem?_map, hB]
    exact ⟨_, rfl, hb, m, (hsegs B ρ m _).mpr ⟨u.events, hsrc, rfl⟩, hlast⟩

theorem raced_block (F : Func) (v : RaceVisit) :
    (F.raced v).block = v.block ∧ (F.raced v).last = v.last := by
  unfold Func.raced
  split <;> exact ⟨rfl, rfl⟩

/-- What a function does after the pass. -/
theorem behaves_raceFunction (succ : ℕ → RaceEvent → ℕ → Prop) {T' : List RaceVisit} :
    (raceFunction F).Behaves succ b ρ T' ↔ ∃ T, F.Behaves succ b ρ T ∧ T' = T.map F.raced := by
  cases hF : isRuntimeName F.name with
  | true =>
      have hsame : raceFunction F = F := by
        unfold raceFunction
        rw [if_pos hF, ite_self]
      have hraced : F.raced = id := by
        funext v
        unfold Func.raced
        rw [if_pos hF]
        rfl
      rw [hsame, hraced]
      simp only [List.map_id, exists_eq_right']
  | false =>
      refine walk_map_iff (fun _ _ _ _ => visits_raceFunction hF) fun v b => ?_
      rw [(raced_block F v).1, (raced_block F v).2]

end Functions

/-! ## What the runtime does -/

section Hearing

variable {T : List RaceVisit} {F : Func}

/-- The hook of an access is heard as the call for it. -/
theorem heard_access (isWrite : Bool) (ptr bytes line : ℕ) {file : Datum} {f : Option String}
    (h : file.file = some f) :
    heard (if isWrite then "rz_rt_write" else "rz_rt_read")
        [.value ptr, .i64 bytes, file, .i32 line] =
      some ((if isWrite then Call.write else Call.read) ptr bytes f line) := by
  cases isWrite with
  | false =>
      show (file.file.bind fun f => some (Call.read ptr bytes f line)) = _
      rw [h]
      rfl
  | true =>
      show (file.file.bind fun f => some (Call.write ptr bytes f line)) = _
      rw [h]
      rfl

theorem steps_accessEvents (isWrite : Bool) (ptr bytes : ℕ) (loc : Option DebugLoc) :
    (accessEvents ptr (.fixed bytes) isWrite loc).flatMap RaceEvent.steps =
      Call.script ((if isWrite then Call.write else Call.read) ptr bytes
        (loc.map DebugLoc.filename) (loc.elim 0 fun l => l.line)) := by
  have hfile : (locData loc).1.file = some (loc.map DebugLoc.filename) := by
    cases loc <;> rfl
  have hline : (locData loc).2 = .i32 (loc.elim 0 fun l => l.line) := by
    cases loc <;> rfl
  have hint : ((loc.elim 0 fun l => l.line : ℕ) : ℤ) = loc.elim 0 fun l => (l.line : ℤ) := by
    cases loc <;> rfl
  show (heard _ [.value ptr, .i64 bytes, (locData loc).1, (locData loc).2]).elim [] Call.script ++
    [] = _
  rw [hline, heard_access isWrite ptr bytes _ hfile, List.append_nil, hint]
  rfl

/-- The runtime does in the place of an event what the event asks for. -/
theorem steps_raced (e : RaceEvent) :
    (e.raced false).flatMap RaceEvent.steps = e.asks.flatMap Call.script := by
  cases e with
  | load ptr size isAtomic loc =>
      cases isAtomic with
      | true => cases size <;> rfl
      | false =>
          cases size with
          | scalable bytes => rfl
          | fixed bytes =>
              show (accessEvents ptr (.fixed bytes) false loc ++ [_]).flatMap _ = _ ++ []
              rw [List.flatMap_append, steps_accessEvents]
              rfl
  | store ptr size isAtomic loc =>
      cases isAtomic with
      | true => cases size <;> rfl
      | false =>
          cases size with
          | scalable bytes => rfl
          | fixed bytes =>
              show (accessEvents ptr (.fixed bytes) true loc ++ [_]).flatMap _ = _ ++ []
              rw [List.flatMap_append, steps_accessEvents]
              rfl
  | atomicRMW ptr => rfl
  | atomicCmpXchg ptr => rfl
  | other => rfl
  | call callee typeMatches args =>
      cases callee with
      | indirect d => cases typeMatches <;> rfl
      | function N =>
          cases typeMatches with
          | false =>
              show (heard N args).elim [] Call.script ++ [] = (heard N args).toList.flatMap _
              cases heard N args <;> rfl
          | true =>
              show (heard ((syncTarget N).getD N) args).elim [] Call.script ++ [] =
                (heard ((syncTarget N).getD N) args).toList.flatMap _
              cases heard ((syncTarget N).getD N) args <;> rfl

theorem runtimeSteps_raced (hF : isRuntimeName F.name = false) (hopt : F.optsOut = false) :
    runtimeSteps (T.map F.raced) = askedSteps T := by
  unfold runtimeSteps askedSteps
  rw [List.flatMap_map]
  refine List.flatMap_congr fun v _ => ?_
  unfold Func.raced
  rw [if_neg (by rw [hF]; exact Bool.false_ne_true), hopt]
  show (v.events.flatMap (RaceEvent.raced false)).flatMap RaceEvent.steps ++ v.last.steps = _
  rw [List.flatMap_assoc, List.flatMap_assoc]
  exact congrArg (· ++ _) (List.flatMap_congr fun e _ => steps_raced e)

/-- After race mode a function does what it has done before, with the hooks around its
accesses and its calls of pthread functions going to their wrappers.  Unless it opts out, the
runtime then does, in the order of the program, what the accesses, the atomic operations and
the pthread calls ask for, and nothing else. -/
theorem behaves_raceMode_iff (M : Module) {i : ℕ} (hi : M.functions[i]? = some F) :
    ∃ F', (runRaceMode M).functions[i]? = some F' ∧ F'.name = F.name ∧
      (∀ (succ : ℕ → RaceEvent → ℕ → Prop) (b : ℕ) (ρ : Value → ℕ) (T' : List RaceVisit),
        F'.Behaves succ b ρ T' ↔ ∃ T, F.Behaves succ b ρ T ∧ T' = T.map F.raced) ∧
      (isRuntimeName F.name = false → F.optsOut = false →
        ∀ T, runtimeSteps (T.map F.raced) = askedSteps T) := by
  refine ⟨raceFunction F, runRaceMode_getElem? hi, ?_, fun succ b ρ T' =>
    behaves_raceFunction succ, fun hF hopt T => runtimeSteps_raced hF hopt⟩
  unfold raceFunction
  split
  · rfl
  split
  · rfl
  · dsimp only
    split <;> rfl

/-- A function that takes a lock, reads, and counts. -/
def lockedRead : Module :=
  ⟨[⟨"get", false, [⟨[.call ⟨.function "pthread_mutex_lock", true, [.value 0]⟩,
    .load 1 (.fixed 4) false none, .atomicRMW 2], .other⟩]⟩]⟩

/-- What `get` does after race mode, with everything at 64, and what the runtime does. -/
theorem behaves_raceMode_lockedRead : ∃ F' v,
    (runRaceMode lockedRead).functions[0]? = some F' ∧
      F'.Behaves (fun _ _ _ => False) 0 (fun _ => 64) [v] ∧
      v.events = [.call (.function "rz_rt_pthread_mutex_lock") true [.value 64],
        .call (.function "rz_rt_read") true [.value 64, .i64 4, .null, .i32 0],
        .load 64 (.fixed 4) false none, releaseEvent 64, .atomicRMW 64, acquireEvent 64] ∧
      runtimeSteps [v] = Runtime.rzRtPthreadMutexLock 64 ++ Runtime.rzRtRead 64 4 none 0 ++
        Runtime.instrumentedAtomic 64 .rmw := by
  obtain ⟨F', hF', -, hiff, hsteps⟩ := behaves_raceMode_iff lockedRead (i := 0)
    (F := lockedRead.functions.head (by decide)) rfl
  have hdef : ∀ I : Inst, I.Defines (fun _ => 64) fun _ => 64 := fun I => by
    unfold Inst.Defines
    split
    · rfl
    · exact fun _ _ => rfl
  have hvisit : (lockedRead.functions.head (by decide)).Visits 0 (fun _ => 64)
      ⟨0, [.call (.function "pthread_mutex_lock") true [.value 64], .load 64 (.fixed 4) false none,
        .atomicRMW 64], .other⟩ fun _ => 64 :=
    ⟨_, rfl, rfl, fun _ => 64, .cons ⟨rfl, hdef _⟩ (.cons ⟨rfl, hdef _⟩ (.cons ⟨rfl, hdef _⟩
      (.nil _))), rfl⟩
  refine ⟨F', _, hF', (hiff _ 0 _ _).mpr ⟨_, .last hvisit, rfl⟩, by decide, ?_⟩
  exact (hsteps (by decide) rfl [_]).trans (by decide)

end Hearing

end Redzone.Pass
