/-
  Runtime/Process.lean --- a process under the race runtime, step by step.

  The state is that of the runtime (`runtime/redzone_race_rt.c`) and what the system
  knows about threads: which ones run, which `pthread_t` value each has, which are
  detached or joined.  An event is one step of one thread: it calls a wrapper, performs
  the next step of the wrapper it is in, exits, or detaches a thread.  Any thread may
  take the next step, so a run is an arbitrary interleaving.

  What the system and the allocator answer is part of the event (`Result`).  Nothing is
  assumed about when a lock is granted.  A `pthread_t` value is handed out only when no
  thread holds it, and a thread holds its value until it has been joined, or has exited
  and is detached; that is all POSIX promises.
-/
import Redzone.Foundation.Transition
import Redzone.Runtime.Wrappers

set_option autoImplicit false

namespace Redzone.Runtime

open Redzone.Foundation
open Redzone.Race

/-! ## The state -/

/-- What the allocator has behind an `rz_thread *`. -/
inductive Handle where
  /-- Not allocated; for a running thread, its TLS is `NULL`. -/
  | absent
  | live (th : RzThread)
  | freed

inductive Phase where
  | unborn
  | running
  | exited
  deriving DecidableEq, Repr

/-- The locals `tid`, `hit_word` and `prev` of `access_range`, set at the first hit. -/
structure Hit where
  tid : ℤ
  word : ℕ
  prev : RzAccess
  deriving DecidableEq, Repr

/-- A thread of the process. -/
structure Thread where
  phase : Phase
  /-- Its `pthread_t` value. -/
  value : ℕ
  detached : Bool
  joined : Bool
  /-- What is left of the wrapper it is in. -/
  todo : Script
  /-- `hits` of `access_range`. -/
  hits : ℕ
  hit : Option Hit
  deriving DecidableEq, Repr

def Thread.unborn : Thread := ⟨.unborn, 0, false, false, [], 0, none⟩

/-- A thread that has just been started. -/
def Thread.started (value : ℕ) : Thread := ⟨.running, value, false, false, [], 0, none⟩

/-- What `print_race` prints. -/
structure RaceReport where
  isWrite : Bool
  tid : ℤ
  addr : ℕ
  file : Option String
  line : ℤ
  prev : RzAccess
  deriving DecidableEq, Repr

/-- The runtime and the threads. -/
structure Process where
  /-- `g_shard` -/
  shards : ℕ → RzRaceState
  /-- `g_meta`, which has no shadow -/
  gMeta : RzRaceState
  /-- `g_sync` -/
  syncs : ℕ → SyncShard
  /-- `g_threads` -/
  registry : List ThrEnt
  /-- `g_races` -/
  races : ℕ
  /-- `g_report_lines` -/
  reportLines : List (ℤ × ℤ)
  /-- `g_verbose` -/
  verbose : Bool
  printed : List RaceReport
  handles : ℕ → Handle
  threads : ℕ → Thread
  /-- The threads that have been started. -/
  names : List ℕ

/-- `RZ_NSHARD`. -/
abbrev nShard : ℕ := 64

/-- `shard_of`. -/
def shardOf (word : ℕ) : ℕ := (word * hashMultiplier % wordSize) / 2 ^ 40 % nShard

/-- What the system answers in `init_once`. -/
structure Init where
  /-- The `pthread_t` value of the first thread. -/
  value : ℕ
  /-- `calloc` of the root handle succeeds. -/
  rootOk : Bool
  /-- The allocation of each shard succeeds. -/
  shardOk : ℕ → Bool
  /-- `REDZONE_RACE_VERBOSE` is set. -/
  verbose : Bool

/-- The process after `init_once`: one thread, the root. -/
def Process.initial (i : Init) : Process :=
  let root := rzThreadInit (rzRaceStateInitN 0 false)
  { shards := fun sh => rzRaceStateInitN (raceBuckets / nShard) (i.shardOk sh)
    gMeta := if i.rootOk then root.2 else rzRaceStateInitN 0 false
    syncs := fun _ => .empty
    registry := []
    races := 0
    reportLines := []
    verbose := i.verbose
    printed := []
    handles := fun t => if t = 0 ∧ i.rootOk = true then .live root.1 else .absent
    threads := fun t => if t = 0 then .started i.value else .unborn
    names := [0] }

namespace Process

def setHandle (s : Process) (t : ℕ) (h : Handle) : Process :=
  { s with handles := Function.update s.handles t h }

def setThread (s : Process) (t : ℕ) (th : Thread) : Process :=
  { s with threads := Function.update s.threads t th }

def setTodo (s : Process) (t : ℕ) (todo : Script) : Process :=
  s.setThread t { s.threads t with todo := todo }

def setSync (s : Process) (key : ℕ) (sh : SyncShard) : Process :=
  { s with syncs := Function.update s.syncs (syncShardOf key) sh }

/-- A thread keeps its `pthread_t` value until it has been joined, or has exited and is
detached. -/
def Holds (s : Process) (t : ℕ) : Prop :=
  (s.threads t).joined = false ∧ ¬ ((s.threads t).detached = true ∧ (s.threads t).phase = .exited)

instance (s : Process) (t : ℕ) : Decidable (s.Holds t) := inferInstanceAs (Decidable (_ ∧ _))

/-- A new thread `c` may be given the value `v`. -/
def MayStart (s : Process) (c v : ℕ) : Prop :=
  c ∉ s.names ∧ ∀ t ∈ s.names, s.Holds t → (s.threads t).value ≠ v

instance (s : Process) (c v : ℕ) : Decidable (s.MayStart c v) :=
  inferInstanceAs (Decidable (_ ∧ _))

/-- The value `v` stands for thread `c`, which can still be joined or detached. -/
def Joinable (s : Process) (c v : ℕ) : Prop :=
  c ∈ s.names ∧ (s.threads c).value = v ∧ (s.threads c).joined = false ∧
    (s.threads c).detached = false

instance (s : Process) (c v : ℕ) : Decidable (s.Joinable c v) :=
  inferInstanceAs (Decidable (_ ∧ _))

end Process

/-! ## Events -/

/-- What the system and the allocator answer in one step. -/
structure Result where
  /-- The return code of the real operation. -/
  rc : ℤ
  /-- The real operation has taken effect: the lock is held, or no longer held, or the
  value has been written. -/
  done : Bool
  /-- How the lock was held that is given up. -/
  mode : Mode
  /-- The allocations of the step succeed. -/
  alloc : Bool
  /-- The thread that is created or joined. -/
  child : ℕ
  /-- The `pthread_t` value of a new thread. -/
  value : ℕ
  deriving DecidableEq, Repr

/-- Everything succeeds. -/
def Result.ok : Result := ⟨0, true, .exclusive, true, 0, 0⟩

inductive Action where
  /-- The program calls a wrapper. -/
  | call (c : Call)
  /-- The next step of the wrapper. -/
  | step (m : Micro) (r : Result)
  /-- The thread ends. -/
  | exit
  /-- `pthread_detach`, which the pass leaves alone; `target` is the thread it is about. -/
  | detach (thread target : ℕ)
  deriving DecidableEq, Repr

/-- One step of one thread. -/
structure Event where
  thread : ℕ
  action : Action
  deriving DecidableEq, Repr

/-- `P` holds of the step, if the event is a step of a wrapper. -/
def Event.OnStep (P : ℕ → Result → Micro → Prop) : Event → Prop
  | ⟨t, .step m r⟩ => P t r m
  | _ => True

instance (P : ℕ → Result → Micro → Prop) [∀ t r m, Decidable (P t r m)] :
    (e : Event) → Decidable (e.OnStep P)
  | ⟨t, .step m r⟩ => inferInstanceAs (Decidable (P t r m))
  | ⟨_, .call _⟩ | ⟨_, .exit⟩ | ⟨_, .detach _ _⟩ => .isTrue trivial

/-! ## Steps -/

/-- `RZ_RACE_REPORT_CAP`. -/
abbrev reportCap : ℕ := 16

/-- `should_report`: the decision, and the line pairs afterwards. -/
def shouldReport (lines : List (ℤ × ℤ)) (verbose : Bool) (line prevLine : ℤ) :
    Bool × List (ℤ × ℤ) :=
  if verbose then (true, lines)
  else if (line, prevLine) ∈ lines then (false, lines)
  else if lines.length ≥ reportCap then (false, lines)
  else (true, lines ++ [(line, prevLine)])

namespace Process

/-- `self`, for a thread without a handle. -/
def selfInit (s : Process) (t : ℕ) : Process :=
  let init := rzThreadInit s.gMeta
  { s with gMeta := init.2 }.setHandle t (.live init.1)

/-- The body of `rz_rt_mutex_lock` under the shard's lock. -/
def acquireStep (s : Process) (t : ℕ) (th : RzThread) (key : ℕ) (growOk : Bool) : Process :=
  match syncForIn (s.syncs (syncShardOf key)) key growOk with
  | some (i, sh) => (s.setSync key sh).setHandle t (.live (rzMutexAcquire th (sh.syncAt i)))
  | none => s

/-- The body of `rz_rt_mutex_unlock` under the shard's lock. -/
def releaseStep (s : Process) (t : ℕ) (th : RzThread) (key : ℕ) (growOk : Bool) : Process :=
  match syncForIn (s.syncs (syncShardOf key)) key growOk with
  | some (i, sh) =>
    let released := rzMutexRelease th (sh.syncAt i)
    (s.setSync key (sh.setSync i released.2)).setHandle t (.live released.1)
  | none => s

/-- `rz_thread_create` for the handle of `child`. -/
def createStep (s : Process) (t : ℕ) (parent : RzThread) (child : ℕ) : Process :=
  let created := rzThreadCreate s.gMeta parent
  ({ s with gMeta := created.2.2 }.setHandle t (.live created.1)).setHandle child
    (.live created.2.1)

/-- A new thread runs. -/
def start (s : Process) (child value : ℕ) : Process :=
  { s.setThread child (.started value) with names := child :: s.names }

/-- The locals of `access_range` after a word whose check has found `prev`. -/
def addHit (s : Process) (t : ℕ) (tid : ℤ) (w : ℕ) : Option RzAccess → Process
  | some prev =>
    s.setThread t { s.threads t with
      hits := (s.threads t).hits + 1
      hit := if (s.threads t).hits = 0 then some ⟨tid, w * 8, prev⟩ else (s.threads t).hit }
  | none => s

/-- One word of `access_range`. -/
def wordStep (s : Process) (t : ℕ) (th : RzThread) (a : Access) (w : ℕ) : Process :=
  let r := rzRaceAccessLoc (s.shards (shardOf w)) th (w * 8) a.isWrite a.file a.line
  { s with shards := Function.update s.shards (shardOf w) r.2 }.addHit t th.tid w r.1

/-- The end of `access_range`. -/
def finishStep (s : Process) (t : ℕ) (a : Access) : Process :=
  match (s.threads t).hits, (s.threads t).hit with
  | hits + 1, some h =>
    let report := shouldReport s.reportLines s.verbose a.line h.prev.line
    { s with
      races := (s.races + (hits + 1)) % wordSize
      reportLines := report.2
      printed :=
        if report.1 then s.printed ++ [⟨a.isWrite, h.tid, h.word, a.file, a.line, h.prev⟩]
        else s.printed }
  | _, _ => s

/-- What the step `m` of thread `t` does to the process, the place in the wrapper apart.
Not possible: what the system does not do, and a step that uses a `NULL` or dangling
handle. -/
def effect (s : Process) (t : ℕ) (r : Result) : Micro → Option Process
  | .self =>
    match s.handles t with
    | .absent => some (if r.alloc then s.selfInit t else s)
    | .live _ => some s
    | .freed => none
  | .acquire key =>
    match s.handles t with
    | .absent => some s
    | .live th => some (s.acquireStep t th key r.alloc)
    | .freed => none
  | .release key =>
    match s.handles t with
    | .absent => some s
    | .live th => some (s.releaseStep t th key r.alloc)
    | .freed => none
  | .lock _ _ | .trylock _ _ | .unlock _ | .waitUnlock _ | .waitLock _ | .atomicOp _ _ => some s
  | .recordCreate =>
    if r.alloc then
      match s.handles t, s.handles r.child with
      | .live parent, .absent =>
        if r.child ∈ s.names then none else some (s.createStep t parent r.child)
      | _, _ => none
    else some s
  | .create child =>
    if r.rc = 0 then
      if s.MayStart child r.value then some (s.start child r.value) else none
    else some (s.setHandle child .absent)
  | .createUntracked =>
    if r.rc = 0 then
      match s.handles r.child with
      | .absent => if s.MayStart r.child r.value then some (s.start r.child r.value) else none
      | _ => none
    else some s
  | .register thr child => some { s with registry := regThread s.registry thr child r.alloc }
  | .join thr =>
    if r.rc = 0 then
      if s.Joinable r.child thr ∧ (s.threads r.child).phase = .exited then
        some (s.setThread r.child { s.threads r.child with joined := true })
      else none
    else some s
  | .takeThread thr _ =>
    match takeThread s.registry thr with
    | (none, registry) => some { s with registry := registry }
    | (some c, registry) =>
      match s.handles t, s.handles c with
      | .live parent, .live child =>
        some ({ s with registry := registry }.setHandle t (.live (rzThreadJoin parent child)))
      | _, _ => none
  | .freeHandle c => some (s.setHandle c .freed)
  | .word a w =>
    match s.handles t with
    | .absent => some s
    | .live th => some (s.wordStep t th a w)
    | .freed => none
  | .finish a => some (s.finishStep t a)

/-- What is left of the wrapper after the step `m`: a failed try-lock ends it, the steps
of create and join depend on what the system answered. -/
def next (s : Process) (r : Result) (rest : Script) : Micro → Script
  | .trylock _ _ => if r.rc = 0 then rest else []
  | .recordCreate => (if r.alloc then .create r.child else .createUntracked) :: rest
  | .create child => if r.rc = 0 then .register r.value child :: rest else rest
  | .join thr => if r.rc = 0 then .takeThread thr r.child :: rest else rest
  | .takeThread thr _ =>
    match (takeThread s.registry thr).1 with
    | some c => .freeHandle c :: rest
    | none => rest
  | _ => rest

/-- One event.  Only a running thread takes steps, and it finishes a wrapper before it
does anything else. -/
def step (s : Process) (e : Event) : Option Process :=
  let th := s.threads e.thread
  if th.phase ≠ .running then none
  else
    match e.action, th.todo with
    | .call c, [] =>
      some (s.setThread e.thread { th with todo := c.script, hits := 0, hit := none })
    | .step m r, m' :: rest =>
      if m = m' then
        (s.effect e.thread r m).map fun s' => s'.setTodo e.thread (s.next r rest m)
      else none
    | .exit, [] => some (s.setThread e.thread { th with phase := .exited })
    | .detach thread target, [] =>
      if s.Joinable target thread then
        some (s.setThread target { s.threads target with detached := true })
      else none
    | _, _ => none

end Process

/-! ## Runs -/

/-- All allocations of `init_once` succeed. -/
def Init.ok : Init := ⟨0, true, fun _ => true, false⟩

/-- The events of a call that nothing interrupts and in which everything succeeds. -/
def wholeCall (t : ℕ) (c : Call) : List Event :=
  ⟨t, .call c⟩ :: c.script.map fun m => ⟨t, .step m .ok⟩

/-- `rz_rt_pthread_create` of `child` without an interruption. -/
def wholeCreate (t child value : ℕ) : List Event :=
  [⟨t, .call .create⟩, ⟨t, .step .self .ok⟩,
    ⟨t, .step .recordCreate { Result.ok with child := child }⟩,
    ⟨t, .step (.create child) { Result.ok with value := value }⟩,
    ⟨t, .step (.register value child) .ok⟩]

/-- `rz_rt_pthread_join` up to the return of the real `pthread_join` of `child`. -/
def realJoin (t value child : ℕ) : List Event :=
  [⟨t, .call (.join value)⟩, ⟨t, .step .self .ok⟩,
    ⟨t, .step (.join value) { Result.ok with child := child }⟩]

/-- `rz_rt_pthread_join` of `child` without an interruption. -/
def wholeJoin (t value child : ℕ) : List Event :=
  realJoin t value child ++
    [⟨t, .step (.takeThread value child) .ok⟩, ⟨t, .step (.freeHandle child) .ok⟩]

/-- The process after `es`. -/
def processRun (i : Init) (es : List Event) : Option Process :=
  run Process.step (.initial i) es

end Redzone.Runtime
