/-
  Runtime/Wrappers.lean --- the wrappers of `runtime/redzone_race_rt.c` as sequences of
  indivisible steps.

  Between two steps of a wrapper other threads may run.  A step is a call into libc (the
  real operation), or one critical section of the runtime: the clock update under the
  lock of a sync shard, the check of one word under the lock of a shadow shard, a change
  of the thread registry under `g_meta_lock`.  Every wrapper is the list of its steps,
  under its name in the source.

  An atomic operation of the program stands between the two hooks that the pass puts
  around it.
-/
import Redzone.Runtime.Registry

set_option autoImplicit false

namespace Redzone.Runtime

open Redzone.Foundation
open Redzone.Race

/-! ## Steps -/

/-- How a lock is held: a mutex, or an rwlock for writing, is held exclusively. -/
inductive Mode where
  | exclusive
  | shared
  deriving DecidableEq, Repr

/-- An atomic operation on memory. -/
inductive AtomicKind where
  | load
  | store
  /-- `atomicrmw` and `cmpxchg` -/
  | rmw
  deriving DecidableEq, Repr

/-- The arguments of `access_range`. -/
structure Access where
  addr : ℕ
  size : ℕ
  isWrite : Bool
  file : Option String
  line : ℤ
  deriving DecidableEq, Repr

/-- One indivisible step of a wrapper. -/
inductive Micro where
  /-- `self` -/
  | self
  /-- `rz_mutex_acquire` on the object of `key`, under the shard's lock -/
  | acquire (key : ℕ)
  /-- `rz_mutex_release` on the object of `key`, under the shard's lock -/
  | release (key : ℕ)
  /-- the real `pthread_mutex_lock`, `pthread_rwlock_rdlock` or `pthread_rwlock_wrlock` -/
  | lock (key : ℕ) (mode : Mode)
  /-- the real try-lock; the wrapper ends here if it does not return 0 -/
  | trylock (key : ℕ) (mode : Mode)
  /-- the real unlock -/
  | unlock (key : ℕ)
  /-- the unlock inside `pthread_cond_wait` -/
  | waitUnlock (key : ℕ)
  /-- the lock inside `pthread_cond_wait` -/
  | waitLock (key : ℕ)
  /-- the atomic operation itself -/
  | atomicOp (key : ℕ) (kind : AtomicKind)
  /-- the allocations of `rz_rt_pthread_create`, and `rz_thread_create` -/
  | recordCreate
  /-- the real `pthread_create` of a thread with the handle of `child` -/
  | create (child : ℕ)
  /-- the real `pthread_create` of an untracked thread -/
  | createUntracked
  /-- `reg_thread` -/
  | register (thr child : ℕ)
  /-- the real `pthread_join` -/
  | join (thr : ℕ)
  /-- `take_thread` and `rz_thread_join`, after thread `joined` has really been joined -/
  | takeThread (thr joined : ℕ)
  /-- `free` of a handle -/
  | freeHandle (handle : ℕ)
  /-- one word of `access_range` -/
  | word (a : Access) (w : ℕ)
  /-- the end of `access_range` -/
  | finish (a : Access)
  deriving DecidableEq, Repr

/-- What is left of a wrapper. -/
abbrev Script : Type := List Micro

/-! ## Wrappers -/

/-- `rz_rt_mutex_lock`. -/
def rzRtMutexLock (mutex : ℕ) : Script := [.self, .acquire mutex]

/-- `rz_rt_mutex_unlock`. -/
def rzRtMutexUnlock (mutex : ℕ) : Script := [.self, .release mutex]

/-- `rz_rt_pthread_mutex_lock`. -/
def rzRtPthreadMutexLock (mutex : ℕ) : Script :=
  .lock mutex .exclusive :: rzRtMutexLock mutex

/-- `rz_rt_pthread_mutex_unlock`. -/
def rzRtPthreadMutexUnlock (mutex : ℕ) : Script := rzRtMutexUnlock mutex ++ [.unlock mutex]

/-- `rz_rt_pthread_mutex_trylock`. -/
def rzRtPthreadMutexTrylock (mutex : ℕ) : Script :=
  .trylock mutex .exclusive :: rzRtMutexLock mutex

/-- `rz_rt_pthread_rwlock_rdlock`. -/
def rzRtPthreadRwlockRdlock (rwlock : ℕ) : Script := .lock rwlock .shared :: rzRtMutexLock rwlock

/-- `rz_rt_pthread_rwlock_wrlock`. -/
def rzRtPthreadRwlockWrlock (rwlock : ℕ) : Script :=
  .lock rwlock .exclusive :: rzRtMutexLock rwlock

/-- `rz_rt_pthread_rwlock_tryrdlock`. -/
def rzRtPthreadRwlockTryrdlock (rwlock : ℕ) : Script :=
  .trylock rwlock .shared :: rzRtMutexLock rwlock

/-- `rz_rt_pthread_rwlock_trywrlock`. -/
def rzRtPthreadRwlockTrywrlock (rwlock : ℕ) : Script :=
  .trylock rwlock .exclusive :: rzRtMutexLock rwlock

/-- `rz_rt_pthread_rwlock_unlock`. -/
def rzRtPthreadRwlockUnlock (rwlock : ℕ) : Script := rzRtMutexUnlock rwlock ++ [.unlock rwlock]

/-- `rz_rt_pthread_cond_wait`. -/
def rzRtPthreadCondWait (mutex : ℕ) : Script :=
  rzRtMutexUnlock mutex ++ .waitUnlock mutex :: .waitLock mutex :: rzRtMutexLock mutex

/-- `rz_rt_pthread_cond_timedwait`. -/
def rzRtPthreadCondTimedwait (mutex : ℕ) : Script :=
  rzRtMutexUnlock mutex ++ .waitUnlock mutex :: .waitLock mutex :: rzRtMutexLock mutex

/-- `rz_rt_atomic_acquire`. -/
def rzRtAtomicAcquire (addr : ℕ) : Script := rzRtMutexLock addr

/-- `rz_rt_atomic_release`. -/
def rzRtAtomicRelease (addr : ℕ) : Script := rzRtMutexUnlock addr

/-- An atomic operation with the hooks of the pass: a release before one that writes, an
acquire after one that reads. -/
def instrumentedAtomic (addr : ℕ) : AtomicKind → Script
  | .load => .atomicOp addr .load :: rzRtAtomicAcquire addr
  | .store => rzRtAtomicRelease addr ++ [.atomicOp addr .store]
  | .rmw => rzRtAtomicRelease addr ++ .atomicOp addr .rmw :: rzRtAtomicAcquire addr

/-- `rz_rt_pthread_create`. -/
def rzRtPthreadCreate : Script := [.self, .recordCreate]

/-- `rz_rt_pthread_join`. -/
def rzRtPthreadJoin (thread : ℕ) : Script := [.self, .join thread]

/-- The words of an access, `first` to `last`. -/
def Access.words (a : Access) : List ℕ :=
  let size := if a.size = 0 then 1 else a.size
  let first := a.addr / 8
  let last := (a.addr + size - 1) % wordSize / 8
  List.range' first (last + 1 - first)

/-- `access_range`. -/
def accessRange (a : Access) : Script := .self :: (a.words.map (.word a) ++ [.finish a])

/-- `rz_rt_read`. -/
def rzRtRead (addr size : ℕ) (file : Option String) (line : ℤ) : Script :=
  accessRange ⟨addr, size, false, file, line⟩

/-- `rz_rt_write`. -/
def rzRtWrite (addr size : ℕ) (file : Option String) (line : ℤ) : Script :=
  accessRange ⟨addr, size, true, file, line⟩

/-- A call of the program into the runtime. -/
inductive Call where
  | mutexLock (mutex : ℕ)
  | mutexUnlock (mutex : ℕ)
  | pthreadMutexLock (mutex : ℕ)
  | pthreadMutexUnlock (mutex : ℕ)
  | pthreadMutexTrylock (mutex : ℕ)
  | rwlockRdlock (rwlock : ℕ)
  | rwlockWrlock (rwlock : ℕ)
  | rwlockTryrdlock (rwlock : ℕ)
  | rwlockTrywrlock (rwlock : ℕ)
  | rwlockUnlock (rwlock : ℕ)
  | condWait (mutex : ℕ)
  | condTimedwait (mutex : ℕ)
  | atomic (addr : ℕ) (kind : AtomicKind)
  | create
  | join (thread : ℕ)
  | read (addr size : ℕ) (file : Option String) (line : ℤ)
  | write (addr size : ℕ) (file : Option String) (line : ℤ)
  deriving DecidableEq, Repr

/-- The wrapper that is called. -/
def Call.script : Call → Script
  | .mutexLock mutex => rzRtMutexLock mutex
  | .mutexUnlock mutex => rzRtMutexUnlock mutex
  | .pthreadMutexLock mutex => rzRtPthreadMutexLock mutex
  | .pthreadMutexUnlock mutex => rzRtPthreadMutexUnlock mutex
  | .pthreadMutexTrylock mutex => rzRtPthreadMutexTrylock mutex
  | .rwlockRdlock rwlock => rzRtPthreadRwlockRdlock rwlock
  | .rwlockWrlock rwlock => rzRtPthreadRwlockWrlock rwlock
  | .rwlockTryrdlock rwlock => rzRtPthreadRwlockTryrdlock rwlock
  | .rwlockTrywrlock rwlock => rzRtPthreadRwlockTrywrlock rwlock
  | .rwlockUnlock rwlock => rzRtPthreadRwlockUnlock rwlock
  | .condWait mutex => rzRtPthreadCondWait mutex
  | .condTimedwait mutex => rzRtPthreadCondTimedwait mutex
  | .atomic addr kind => instrumentedAtomic addr kind
  | .create => rzRtPthreadCreate
  | .join thread => rzRtPthreadJoin thread
  | .read addr size file line => rzRtRead addr size file line
  | .write addr size file line => rzRtWrite addr size file line

end Redzone.Runtime
