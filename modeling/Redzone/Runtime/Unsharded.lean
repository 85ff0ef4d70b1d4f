/-
  Runtime/Unsharded.lean --- the race detector without shards.

  The ideal engine has one map from words to their cells and one map from the addresses of
  locks and atomics to their clocks.  No table is ever full and nothing is allocated.  It is
  driven by operations, each on behalf of one thread, and answers an access to a word with
  the prior access that it conflicts with.

  `Process.asks` is the operation that a step of the runtime stands for.
-/
import Redzone.Foundation.Driven
import Redzone.Runtime.Records

set_option autoImplicit false

namespace Redzone.Runtime

open Redzone.Foundation
open Redzone.Race

/-! ## The ideal engine -/

structure Unsharded where
  /-- What has been recorded for each word. -/
  cells : ℕ → Cells
  /-- The clock of the object at each address. -/
  clocks : ℕ → RzVc
  /-- The threads that have a clock. -/
  threads : ℕ → Option RzThread
  nextTid : ℤ
  /-- The races that each thread has found since it called a wrapper, the first one first. -/
  found : ℕ → List Hit

/-- What the engine is asked for. -/
inductive Op where
  /-- A thread starts, or calls a wrapper. -/
  | enter (t : ℕ)
  /-- `rz_thread_init`, for a thread without a clock -/
  | init (t : ℕ)
  /-- `rz_mutex_acquire` -/
  | acquire (t key : ℕ)
  /-- `rz_mutex_release` -/
  | release (t key : ℕ)
  /-- `rz_thread_create` -/
  | create (t child : ℕ)
  /-- `rz_thread_join` -/
  | join (t child : ℕ)
  /-- The clock of a thread is given up. -/
  | drop (t : ℕ)
  /-- `rz_race_access_loc`, for one word -/
  | access (t word : ℕ) (isWrite : Bool) (file : Option String) (line : ℤ)
  deriving DecidableEq, Repr

/-- What an access to a word has found. -/
structure Verdict where
  thread : ℕ
  word : ℕ
  /-- The prior access that it conflicts with. -/
  prev : Option RzAccess
  deriving DecidableEq, Repr

namespace Unsharded

/-- Nothing recorded, and no thread has a clock. -/
def empty : Unsharded := ⟨fun _ => noCells, fun _ => rzVcInit, fun _ => none, 0, fun _ => []⟩

def setThread (u : Unsharded) (t : ℕ) (th : Option RzThread) : Unsharded :=
  { u with threads := Function.update u.threads t th }

def setClock (u : Unsharded) (key : ℕ) (c : RzVc) : Unsharded :=
  { u with clocks := Function.update u.clocks key c }

def setCells (u : Unsharded) (word : ℕ) (cells : Cells) : Unsharded :=
  { u with cells := Function.update u.cells word cells }

def setFound (u : Unsharded) (t : ℕ) (hits : List Hit) : Unsharded :=
  { u with found := Function.update u.found t hits }

section Setters

variable {u : Unsharded} {t x : ℕ} {th : Option RzThread} {c : RzVc} {cells : Cells}
  {hits : List Hit}

theorem setThread_self : (u.setThread t th).threads t = th := Function.update_self ..

theorem setThread_of_ne (h : x ≠ t) : (u.setThread t th).threads x = u.threads x :=
  Function.update_of_ne h ..

theorem setClock_self : (u.setClock t c).clocks t = c := Function.update_self ..

theorem setClock_of_ne (h : x ≠ t) : (u.setClock t c).clocks x = u.clocks x :=
  Function.update_of_ne h ..

theorem setCells_self : (u.setCells t cells).cells t = cells := Function.update_self ..

theorem setCells_of_ne (h : x ≠ t) : (u.setCells t cells).cells x = u.cells x :=
  Function.update_of_ne h ..

theorem setFound_self : (u.setFound t hits).found t = hits := Function.update_self ..

theorem setFound_of_ne (h : x ≠ t) : (u.setFound t hits).found x = u.found x :=
  Function.update_of_ne h ..

end Setters

/-- The clock of the object becomes part of that of the thread. -/
def acquire (u : Unsharded) (t key : ℕ) (th : RzThread) : Unsharded :=
  u.setThread t (some { th with clock := th.clock ⊔ u.clocks key })

/-- The clock of the thread becomes part of that of the object, and moves on. -/
def release (u : Unsharded) (t key : ℕ) (th : RzThread) : Unsharded :=
  (u.setClock key (u.clocks key ⊔ th.clock)).setThread t
    (some { th with clock := rzVcTick th.clock th.tid })

/-- The next thread id, for a thread without a clock. -/
def init (u : Unsharded) (t : ℕ) : Unsharded :=
  { u with nextTid := intSucc u.nextTid }.setThread t
    (some ⟨u.nextTid, rzVcTick rzVcInit u.nextTid⟩)

/-- The child starts with the clock of its parent. -/
def create (u : Unsharded) (t child : ℕ) (parent : RzThread) : Unsharded :=
  ({ u with nextTid := intSucc u.nextTid }.setThread t
    (some { parent with clock := rzVcTick parent.clock parent.tid })).setThread child
    (some ⟨u.nextTid, rzVcTick parent.clock u.nextTid⟩)

/-- The clock of the child becomes part of that of its parent. -/
def join (u : Unsharded) (t : ℕ) (parent child : RzThread) : Unsharded :=
  u.setThread t (some { parent with clock := parent.clock ⊔ child.clock })

/-- The access is judged by what has been recorded for its word, and recorded there. -/
def access (u : Unsharded) (t word : ℕ) (isWrite : Bool) (file : Option String) (line : ℤ)
    (th : RzThread) : Unsharded :=
  let hits := (conflictingCell (u.cells word) th isWrite).toList.map (Hit.mk th.tid (word * 8))
  (u.setCells word (recordAccess (u.cells word) th isWrite file line)).setFound t
    (u.found t ++ hits)

end Unsharded

/-- One operation.  A thread without a clock has no part in the detection. -/
def Op.act : Op → Unsharded → Unsharded
  | .enter t, u => u.setFound t []
  | .init t, u => if (u.threads t).isSome then u else u.init t
  | .acquire t key, u => (u.threads t).elim u (u.acquire t key)
  | .release t key, u => (u.threads t).elim u (u.release t key)
  | .create t child, u => (u.threads t).elim u (u.create t child)
  | .join t child, u => (u.threads t).elim u fun th => (u.threads child).elim u (u.join t th)
  | .drop t, u => u.setThread t none
  | .access t word isWrite file line, u =>
    (u.threads t).elim u (u.access t word isWrite file line)

/-- The answer to an access. -/
def Unsharded.answer (u : Unsharded) : Op → List Verdict
  | .access t word isWrite _ _ =>
    (u.threads t).toList.map fun th => ⟨t, word, conflictingCell (u.cells word) th isWrite⟩
  | _ => []

/-- The ideal engine when the first thread starts. -/
def Unsharded.initial (i : Init) : Unsharded := if i.rootOk then empty.init 0 else empty

/-! ## What the runtime stands for -/

/-- The clock behind a handle. -/
def Handle.thread : Handle → Option RzThread
  | .live th => some th
  | _ => none

namespace Process

/-- The operations that a step of a wrapper stands for. -/
def asksStep (s : Process) (t : ℕ) (r : Result) : Micro → List Op
  | .self => if r.alloc then [.init t] else []
  | .acquire key => [.acquire t key]
  | .release key => [.release t key]
  | .recordCreate => if r.alloc then [.create t r.child] else []
  | .create child => if r.rc = 0 then [.enter child] else [.drop child]
  | .createUntracked => if r.rc = 0 then [.enter r.child] else []
  | .takeThread thr _ => (takeThread s.registry thr).1.toList.map (.join t)
  | .freeHandle child => [.drop child]
  | .word a w => [.access t w a.isWrite a.file a.line]
  | _ => []

/-- The operations that an event stands for. -/
def asks (s : Process) : Event → List Op
  | ⟨t, .call _⟩ => [.enter t]
  | ⟨t, .step m r⟩ => s.asksStep t r m
  | _ => []

/-- What the runtime finds in one step. -/
def answer (s : Process) : Event → List Verdict
  | ⟨t, .step (.word a w) _⟩ =>
    (s.handles t).thread.toList.map fun th =>
      ⟨t, w, (rzRaceAccessLoc (s.shards (shardOf w)) th (w * 8) a.isWrite a.file a.line).1⟩
  | _ => []

end Process

/-- The operations that a run stands for. -/
def asked (i : Init) (es : List Event) : List Op :=
  observed Process.step Process.asks (.initial i) es

/-- The ideal engine after the operations that a run stands for. -/
def unshardedRun (i : Init) (es : List Event) : Unsharded :=
  perform Op.act (asked i es) (.initial i)

/-! ## Words -/

/-- The word has a byte of the access.  An access of no size is one of a byte. -/
def Access.Touches (a : Access) (w : ℕ) : Prop :=
  ∃ x, a.addr ≤ x ∧ x < a.addr + max a.size 1 ∧ wordOf x = w

/-- The accesses of a thread among the operations, by their words. -/
def wordsOf (t : ℕ) : List Op → List ℕ :=
  List.filterMap fun
    | .access t' w _ _ _ => if t' = t then some w else none
    | _ => none

/-- The words that a wrapper has still to check. -/
def wordsLeft : Script → List ℕ :=
  List.filterMap fun
    | .word _ w => some w
    | _ => none

/-- The access that a call is about. -/
def Call.access : Call → Option Access
  | .read addr size file line => some ⟨addr, size, false, file, line⟩
  | .write addr size file line => some ⟨addr, size, true, file, line⟩
  | _ => none

end Redzone.Runtime
