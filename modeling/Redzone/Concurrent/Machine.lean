/-
  Concurrent/Machine.lean --- calls of several threads, one step at a time.

  A call of the allocator checks its arguments and asks the system for memory, takes the
  table lock for one step, and then makes its updates of the shadow and of the header
  without the lock.  A thread that enters or leaves a stack variable makes updates only.
  Between its calls a thread stores bytes that its checks let pass.  Any thread may take the
  next step.

  Memory starts out with any contents.  So a block that is in the table already, but has no
  header yet, may have the bytes of a header all the same.

  A report ends the process.  Here it ends the call only, and the other threads may go on:
  every run of the process is a run of the machine, and what the other calls would report
  can be said, too.
-/
import Redzone.Concurrent.Writes
import Redzone.Shadow.FreePointer

set_option autoImplicit false

namespace Redzone.Concurrent

open Redzone.Foundation
open Redzone.Shadow

/-! ## Calls -/

inductive Call where
  | malloc (size : ℕ) (file : Option String) (line : ℤ)
  | alignedAlloc (alignment size : ℕ) (file : Option String) (line : ℤ)
  | calloc (nmemb size : ℕ) (file : Option String) (line : ℤ)
  | free (ptr : ℕ)
  | stackEnter (v : StackVar)
  | stackLeave (v : StackVar)
  /-- The program stores a byte; its check is not a call. -/
  | store (addr : ℕ) (byte : UInt8)
  deriving DecidableEq, Repr

/-- The block that `rz_allocate` lays out in the extent at `base`. -/
def layOut (size align : ℕ) (file : Option String) (line : ℤ) (base : ℕ) : Block :=
  ⟨base, size + 2 * redzoneSize + (if align > redzoneSize then align else 0),
    clearLow ((base + redzoneSize + (align - 1)) % wordSize) align, size, false, file, line⟩

/-- The part of `rz_allocate` in front of the lock: the block that it is going to record,
or none if it returns `NULL`. -/
def rzRequest (size align : ℕ) (file : Option String) (line : ℤ) (sys : Sys) : Option Block :=
  if size > sizeMax - 2 * redzoneSize - (if align > redzoneSize then align else 0) then none
  else sys.malloc.map (layOut size align file line)

/-- The same for the allocators on top of it. -/
def Call.request (sys : Sys) : Call → Option Block
  | .malloc size file line => rzRequest size redzoneSize file line sys
  | .alignedAlloc alignment size file line =>
    if !isPow2 alignment then none
    else
      rzRequest size (if alignment < redzoneSize then redzoneSize else alignment) file
        line sys
  | .calloc nmemb size file line =>
    if size ≠ 0 ∧ nmemb > sizeMax / size then none
    else rzRequest (nmemb * size) redzoneSize file line sys
  | .free _ | .stackEnter _ | .stackLeave _ | .store _ _ => none

/-- `calloc` zeroes the user bytes when `rz_allocate` has returned. -/
def Call.clears (user : ℕ) : Call → List Write
  | .calloc nmemb size _ _ => [.zero user (nmemb * size)]
  | _ => []

/-- The part of `__redzone_free` under the lock: the block that it has marked, if the
pointer is one of ours. -/
def lockedFree (s : Rt) (ptr : ℕ) : Except Abort (Option Block × Rt) :=
  match blockFromUserPtr s ptr with
  | none =>
    match findBlock s ptr with
    | none => .ok (none, s)
    | some _ => .error (.freeError "invalid-free" ptr)
  | some i =>
    match s.blocks[i]? with
    | none => .ok (none, s)
    | some b =>
      if b.freed then .error (.freeError "double-free" ptr)
      else .ok (some b, { s with blocks := s.blocks.set i { b with freed := true } })

/-! ## The machine -/

/-- Where a call is. -/
inductive Stage where
  /-- It has memory for the block, and is going to record it. -/
  | record (b : Block)
  /-- It is going to look up the pointer. -/
  | find (ptr : ℕ)
  /-- It has its object, makes updates, and is going to return a pointer or nothing. -/
  | writes (own : Option Obj) (todo : List Write) (value : Option ℕ)
  | reported (e : Abort)
  deriving DecidableEq

/-- A call that is being executed. -/
structure Running where
  tid : ℕ
  call : Call
  sys : Sys
  stage : Stage
  deriving DecidableEq

/-- A call that has returned. -/
structure Done where
  tid : ℕ
  call : Call
  sys : Sys
  value : Option ℕ
  deriving DecidableEq

structure Machine where
  rt : Rt
  /-- The variables that have been entered, and by which thread. -/
  stack : List (ℕ × StackVar)
  running : List Running
  done : List Done

/-- No call has been made yet, and memory has any contents. -/
def Machine.initial (mem : Bytes) : Machine := ⟨{ Rt.initial with mem := mem }, [], [], []⟩

/-- The updates that the call owes. -/
def Running.todo (r : Running) : List Write :=
  match r.stage with
  | .writes _ todo _ => todo
  | _ => []

/-- The object that the call works on since it has taken effect. -/
def Running.own (r : Running) : Option Obj :=
  match r.stage with
  | .writes own _ _ => own
  | _ => none

/-- The object of a call that is not in the table, nor a variable that is entered: a block
that is going to be recorded, or a variable that is being left. -/
def Running.held (r : Running) : Option Obj :=
  match r.stage, r.call with
  | .record b, _ => some (place b)
  | .writes _ _ _, .stackLeave v => some v.obj
  | _, _ => none

/-- The call goes on when its block has been recorded. -/
def Running.recorded (r : Running) (b : Block) (idx : ℕ) : Running :=
  let todo := allocWrites b idx ++ r.call.clears b.userAddr
  { r with stage := .writes (some (place b)) todo (some b.userAddr) }

/-- The call goes on when it has marked the block as freed. -/
def Running.marked (r : Running) (b : Block) : Running :=
  { r with stage := .writes (some (place b)) (freeWrites b) none }

/-- The call has nothing more to do. -/
def Running.through (r : Running) : Running := { r with stage := .writes none [] none }

/-- All objects. -/
def Machine.objs (m : Machine) : List Obj :=
  m.rt.blocks.map place ++
    (m.stack.map (fun x => x.2.obj) ++ m.running.filterMap Running.held)

/-- An extent that the system may hand out, or that is free on the stack. -/
def Machine.Fresh (m : Machine) (lo top : ℕ) : Prop :=
  lo % 16 = 0 ∧ top ≤ shadowLimit ∧ ∀ o ∈ m.objs, top ≤ o.lo ∨ o.top ≤ lo

instance (m : Machine) (lo top : ℕ) : Decidable (m.Fresh lo top) :=
  inferInstanceAs (Decidable (_ ∧ _))

/-- The call that thread `t` executes. -/
def Machine.current (m : Machine) (t : ℕ) : Option Running := m.running.find? fun r => r.tid = t

/-- The calls of the other threads. -/
def Machine.rest (m : Machine) (t : ℕ) : List Running := m.running.eraseP fun r => r.tid = t

/-- The thread goes on with its call. -/
def Machine.put (m : Machine) (r : Running) : Machine :=
  { m with running := r :: m.rest r.tid }

/-! ## Steps -/

/-- A thread begins a call. -/
def Machine.start (m : Machine) (t : ℕ) (c : Call) (sys : Sys) : Option Machine :=
  match c with
  | .stackEnter v =>
    if m.Fresh v.base (v.base + v.size + 2 * redzoneSize) then
      some { m.put ⟨t, c, sys, .writes (some v.obj) (enterWrites v) none⟩ with
        stack := (t, v) :: m.stack }
    else none
  | .stackLeave v =>
    if (t, v) ∈ m.stack then
      some { m.put ⟨t, c, sys, .writes (some v.obj) (leaveWrites v) none⟩ with
        stack := m.stack.erase (t, v) }
    else none
  | .free ptr =>
    if ptr = 0 then some (m.put ⟨t, c, sys, .writes none [] none⟩)
    else some (m.put ⟨t, c, sys, .find ptr⟩)
  | .store addr byte =>
    if bytePoisoned m.rt.shadow addr then none
    else
      some { m.put ⟨t, c, sys, .writes none [] none⟩ with
        rt := { m.rt with mem := Function.update m.rt.mem addr byte } }
  | c =>
    match c.request sys with
    | none => some (m.put ⟨t, c, sys, .writes none [] none⟩)
    | some b =>
      if m.Fresh b.realBase (b.realBase + b.totalSize) then
        some (m.put ⟨t, c, sys, .record b⟩)
      else none

/-- The step under the table lock. -/
def Machine.lock (m : Machine) (r : Running) : Option Machine :=
  match r.stage with
  | .record b =>
    match recordBlock m.rt b r.sys.growOk with
    | .error e => some (m.put { r with stage := .reported e })
    | .ok (idx, rt) => some { m.put (r.recorded b idx) with rt := rt }
  | .find ptr =>
    match lockedFree m.rt ptr with
    | .error e => some (m.put { r with stage := .reported e })
    | .ok (none, rt) => some { m.put r.through with rt := rt }
    | .ok (some b, rt) => some { m.put (r.marked b) with rt := rt }
  | _ => none

inductive Event where
  | call (t : ℕ) (c : Call) (sys : Sys)
  | lock (t : ℕ)
  | write (t : ℕ)
  | ret (t : ℕ)
  deriving DecidableEq

def Event.tid : Event → ℕ
  | .call t _ _ | .lock t | .write t | .ret t => t

/-- One step of one thread. -/
def mstep (m : Machine) : Event → Option Machine
  | .call t c sys =>
    match m.current t with
    | some _ => none
    | none => m.start t c sys
  | .lock t =>
    match m.current t with
    | none => none
    | some r => m.lock r
  | .write t =>
    match m.current t with
    | none => none
    | some r =>
      match r.stage with
      | .writes own (a :: todo) value =>
        some { m.put { r with stage := .writes own todo value } with rt := a.act m.rt }
      | _ => none
  | .ret t =>
    match m.current t with
    | none => none
    | some r =>
      match r.stage with
      | .writes _ [] value =>
        some { m with running := m.rest t, done := ⟨t, r.call, r.sys, value⟩ :: m.done }
      | _ => none

/-! ## Orderly steps -/

/-- The update leaves the shadow alone, as a word of a header does. -/
def Write.isMem : Write → Bool
  | .word _ _ | .zero _ _ => true
  | .range _ _ _ | .byte _ _ => false

def Call.isFree : Call → Bool
  | .free _ => true
  | _ => false

theorem isFree_iff {c : Call} : c.isFree = true ↔ ∃ ptr, c = .free ptr := by
  cases c with
  | free ptr => simp [Call.isFree]
  | malloc | alignedAlloc | calloc | stackEnter | stackLeave | store => simp [Call.isFree]

/-- The allocation of the block has recorded it, and still has updates of its shadow to
make. -/
def Machine.unpainted (m : Machine) (b : Block) : Bool :=
  m.running.any fun r =>
    decide (r.own = some (place b)) && !r.call.isFree && r.todo.any fun a => !a.isMem

/-- The block that the pointer leads the call to, if it looks one up. -/
def Running.found (s : Rt) (r : Running) : Option Block :=
  match r.stage with
  | .find ptr => (blockFromUserPtr s ptr).bind fun i => s.blocks[i]?
  | _ => none

/-- The step is the lookup of a free, and finds a block whose shadow is still to be
painted. -/
def Machine.findsEarly (m : Machine) : Event → Bool
  | .lock t => (m.current t).any fun r => (r.found m.rt).any m.unpainted
  | _ => false

/-- A store is outside the objects that running calls work on. -/
def Machine.Calm (m : Machine) : Event → Prop
  | .call _ (.store addr _) _ =>
    ∀ r ∈ m.running, ∀ o ∈ r.own.toList ++ r.held.toList, ¬ o.region.Mem addr
  | _ => True

instance (m : Machine) : (ev : Event) → Decidable (m.Calm ev)
  | .call _ (.store addr _) _ => inferInstanceAs (Decidable
      (∀ r ∈ m.running, ∀ o ∈ r.own.toList ++ r.held.toList, ¬ o.region.Mem addr))
  | .call _ (.malloc ..) _ | .call _ (.alignedAlloc ..) _ | .call _ (.calloc ..) _
  | .call _ (.free _) _ | .call _ (.stackEnter _) _ | .call _ (.stackLeave _) _ => .isTrue trivial
  | .lock _ | .write _ | .ret _ => .isTrue trivial

/-- No free finds a block that its allocation has not painted, and the program stores
nothing into an object that a call is working on. -/
structure Machine.Orderly (m : Machine) (ev : Event) : Prop where
  late : m.findsEarly ev = false
  calm : m.Calm ev

instance (m : Machine) (ev : Event) : Decidable (m.Orderly ev) :=
  decidable_of_iff (m.findsEarly ev = false ∧ m.Calm ev) ⟨fun h => ⟨h.1, h.2⟩, fun h => ⟨h.1, h.2⟩⟩

/-! ## Calls one after another -/

/-- The call as a step of the process. -/
def Call.op (sys : Sys) : Call → Op
  | .malloc size file line => .heap (.malloc size file line sys)
  | .alignedAlloc alignment size file line => .heap (.alignedAlloc alignment size file line sys)
  | .calloc nmemb size file line => .heap (.calloc nmemb size file line sys)
  | .free ptr => .heap (.free ptr)
  | .stackEnter v => .stackEnter v
  | .stackLeave v => .stackLeave v
  | .store addr byte => .store addr byte

/-- What the call returns, executed as a whole. -/
def Call.value (s : Rt) (sys : Sys) : Call → Option ℕ
  | .malloc size file line => (redzoneMalloc s size file line sys).toOption.bind Prod.fst
  | .alignedAlloc alignment size file line =>
    (redzoneAlignedAlloc s alignment size file line sys).toOption.bind Prod.fst
  | .calloc nmemb size file line => (redzoneCalloc s nmemb size file line sys).toOption.bind Prod.fst
  | .free _ | .stackEnter _ | .stackLeave _ | .store _ _ => none

/-- The process before its first call. -/
def startWorld (mem : Bytes) : World := ⟨{ Rt.initial with mem := mem }, [], [], []⟩

/-- The call is executed as a whole, and returns what it has returned; a store is let pass
by its check. -/
def seqStep (w : World) (d : Done) : Option World :=
  if d.call.value w.rt d.sys = d.value ∧ w.MayStore (d.call.op d.sys) then
    w.step (d.call.op d.sys)
  else none

/-- A call of a thread, with the answers of the system, as it is made. -/
def Done.asked (d : Done) : ℕ × Call × Sys := (d.tid, d.call, d.sys)

def Running.asked (r : Running) : ℕ × Call × Sys := (r.tid, r.call, r.sys)

def Event.asks : Event → Option (ℕ × Call × Sys)
  | .call t c sys => some (t, c, sys)
  | _ => none

/-! ## The parts of a call -/

section Parts

variable {s : Rt} {sys : Sys} {size align : ℕ} {file : Option String} {line : ℤ} {b : Block}

/-- `rz_allocate` in terms of its parts. -/
theorem rzAllocate_eq : rzAllocate s size align file line sys =
    match rzRequest size align file line sys with
    | none => .ok (none, s)
    | some b =>
      match recordBlock s b sys.growOk with
      | .error e => .error e
      | .ok (idx, s) => .ok (some b.userAddr, perform Write.act (allocWrites b idx) s) := by
  unfold rzAllocate rzRequest
  by_cases hbig : size > sizeMax - 2 * redzoneSize - (if align > redzoneSize then align else 0)
  · simp only [hbig, if_true]
  · simp only [hbig, if_false]
    cases sys.malloc with
    | none => rfl
    | some base =>
        simp only [Option.map_some, layOut]
        cases recordBlock s _ sys.growOk with
        | error e => rfl
        | ok x => simp only [perform_allocWrites]

theorem rzRequest_eq_some (h : rzRequest size align file line sys = some b) :
    ∃ base, b = layOut size align file line base := by
  unfold rzRequest at h
  obtain ⟨-, h⟩ := Option.ite_none_left_eq_some.mp h
  obtain ⟨base, -, rfl⟩ := Option.map_eq_some_iff.mp h
  exact ⟨base, rfl⟩

/-- A block that is going to be recorded is laid out as `rz_allocate` does it. -/
theorem Call.request_eq_some {c : Call} (h : c.request sys = some b) :
    ∃ size align file line base, b = layOut size align file line base ∧
      (∃ k, align = 2 ^ k) ∧ redzoneSize ≤ align := by
  cases c with
  | malloc size file line =>
      obtain ⟨base, rfl⟩ := rzRequest_eq_some h
      exact ⟨size, redzoneSize, file, line, base, rfl, ⟨4, rfl⟩, le_rfl⟩
  | alignedAlloc alignment size file line =>
      simp only [Call.request] at h
      split at h
      · simp at h
      · rename_i hpow
        obtain ⟨base, rfl⟩ := rzRequest_eq_some h
        exact ⟨size, _, file, line, base, rfl, alignment_ok (by simpa using hpow)⟩
  | calloc nmemb size file line =>
      simp only [Call.request] at h
      split at h
      · simp at h
      · obtain ⟨base, rfl⟩ := rzRequest_eq_some h
        exact ⟨nmemb * size, redzoneSize, file, line, base, rfl, ⟨4, rfl⟩, le_rfl⟩
  | free | stackEnter | stackLeave | store => simp [Call.request] at h

/-- Where a requested block is. -/
theorem Call.request_layout {c : Call} (h : c.request sys = some b) (hal : b.realBase % 16 = 0)
    (htop : b.realBase + b.totalSize ≤ shadowLimit) :
    (place b).OK ∧ b.realBase + redzoneSize ≤ b.userAddr := by
  obtain ⟨size, align, file, line, base, rfl, hpow, hle⟩ := Call.request_eq_some h
  have heff : AllocEffect Rt.initial ⟨[layOut size align file line base], 0, carveUser
      (setShadowRange .zero base (layOut size align file line base).totalSize rzPoison)
      (layOut size align file line base).userAddr size, Rt.initial.mem⟩
      (layOut size align file line base) align :=
    ⟨rfl, rfl, rfl, hpow, hle, rfl, rfl⟩
  have hword : base + (layOut size align file line base).totalSize ≤ wordSize := by
    simp only [shadowLimit, wordSize, layOut] at htop ⊢
    omega
  exact ⟨place_ok (heff.obj_ok hal htop), (heff.layout hal hword).1⟩

/-- `calloc` clears the user bytes. -/
theorem Call.clears_eq {c : Call} (h : c.request sys = some b) {a : Write}
    (ha : a ∈ c.clears b.userAddr) : a = .zero b.userAddr b.userSize := by
  cases c with
  | malloc | alignedAlloc | free | stackEnter | stackLeave | store => simp [Call.clears] at ha
  | calloc nmemb size file line =>
      simp only [Call.request] at h
      split at h
      · simp at h
      · obtain ⟨base, rfl⟩ := rzRequest_eq_some h
        simpa [Call.clears, layOut] using ha

/-- `__redzone_free` in terms of its parts. -/
theorem redzoneFree_eq {ptr : ℕ} (hptr : ptr ≠ 0) : redzoneFree s ptr =
    match lockedFree s ptr with
    | .error e => .error e
    | .ok (none, s) => .ok s
    | .ok (some b, s) => .ok (perform Write.act (freeWrites b) s) := by
  unfold redzoneFree lockedFree
  rw [if_neg hptr]
  cases blockFromUserPtr s ptr with
  | none =>
      cases findBlock s ptr with
      | none => rfl
      | some b => rfl
  | some i =>
      simp only
      cases s.blocks[i]? with
      | none => rfl
      | some b =>
          simp only
          split
          · rfl
          · rfl

end Parts

end Redzone.Concurrent
