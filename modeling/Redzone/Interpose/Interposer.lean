/-
  Interpose/Interposer.lean --- the malloc interposer of `runtime/redzone_interpose.c`.

  A call works on the runtime and on the counter `g_in_runtime` of its thread.  The
  counter is not 0 exactly while the thread holds `g_table_lock`, so `TABLE_LOCK` does not
  return then: the thread waits for itself.  The functions of `runtime/redzone_rt.c` are
  repeated here with their locked sections; outside of one they are those of
  `Shadow/Heap.lean` (`Interpose/Heaps.lean`).

  The system allocator, the default zone and `malloc_zone_from_ptr` are answers.  A call
  keeps a record of the pointers it hands to `rz_sys_free`, `rz_sys_realloc`,
  `__redzone_free` and `__redzone_realloc`.
-/
import Redzone.Shadow.Header

set_option autoImplicit false

namespace Redzone.Interpose

open Redzone.Foundation
open Redzone.Shadow

/-! ## Calls -/

/-- A pointer that is handed to one of the two heaps. -/
inductive Handoff where
  | sysFree (p : ℕ)
  | sysRealloc (p : ℕ)
  | redzoneFree (p : ℕ)
  | redzoneRealloc (p : ℕ)
  deriving DecidableEq, Repr

/-- Why a call does not return. -/
inductive Stop where
  /-- The thread waits for the lock it holds. -/
  | selfDeadlock
  | abort (e : Abort)
  deriving DecidableEq, Repr

/-- What a call works on. -/
structure Ctx where
  rt : Rt
  /-- `g_in_runtime` -/
  inRuntime : ℕ
  handed : List Handoff

/-- A call that reads and writes a context, and may not return. -/
abbrev Call (α : Type) : Type := ExceptT Stop (StateM Ctx) α

/-- What the system answers during one call. -/
structure Answers where
  sys : Sys
  /-- `rz_sys_realloc` of a user pointer -/
  realloc : Option ℕ
  /-- The `size` function of the default zone -/
  defaultSize : ℕ
  /-- `malloc_zone_from_ptr`: does it ask the registered zones? -/
  asksZones : Bool
  /-- `malloc_zone_from_ptr`: its answer -/
  zoneFromPtr : ℕ
  deriving DecidableEq, Repr

/-- The result of `malloc_zone_from_ptr`. -/
inductive ZoneOf where
  /-- `&rz_zone` -/
  | redzone
  | other (zone : ℕ)
  deriving DecidableEq, Repr

/-- Note that a pointer is handed over. -/
def hand (h : Handoff) : Call Unit := modify fun c => { c with handed := c.handed ++ [h] }

/-! ## The lock -/

/-- `TABLE_LOCK`. -/
def tableLock : Call Unit := do
  let c ← get
  if c.inRuntime > 0 then throw .selfDeadlock
  set { c with inRuntime := c.inRuntime + 1 }

/-- `TABLE_UNLOCK`. -/
def tableUnlock : Call Unit := modify fun c => { c with inRuntime := c.inRuntime - 1 }

/-- `__redzone_in_runtime`. -/
def redzoneInRuntime : Call ℕ := do
  let c ← get
  return c.inRuntime

/-- A locked section. -/
def locked {α : Type} (f : Rt → Except Abort (α × Rt)) : Call α := do
  tableLock
  let c ← get
  match f c.rt with
  | .error e => throw (.abort e)
  | .ok (a, rt) =>
    set { c with rt := rt }
    tableUnlock
    return a

/-! ## `runtime/redzone_rt.c` -/

/-- `rz_allocate`: requests that overflow or that the system refuses return before the
locked section. -/
def lockedAllocate (size align : ℕ) (file : Option String) (line : ℤ) (sys : Sys) :
    Call (Option ℕ) := do
  let slack := if align > redzoneSize then align else 0
  if size > sizeMax - 2 * redzoneSize - slack then return none
  match sys.malloc with
  | none => return none
  | some _ => locked fun s => rzAllocate s size align file line sys

/-- `__redzone_malloc`. -/
def lockedMalloc (size : ℕ) (file : Option String) (line : ℤ) (sys : Sys) : Call (Option ℕ) :=
  lockedAllocate size redzoneSize file line sys

/-- `__redzone_calloc`. -/
def lockedCalloc (nmemb size : ℕ) (file : Option String) (line : ℤ) (sys : Sys) :
    Call (Option ℕ) := do
  if size ≠ 0 ∧ nmemb > sizeMax / size then return none
  match ← lockedMalloc (nmemb * size) file line sys with
  | none => return none
  | some p =>
    modify fun c => { c with rt := { c.rt with mem := memset c.rt.mem p 0 (nmemb * size) } }
    return some p

/-- `__redzone_free`. -/
def lockedFree (ptr : ℕ) : Call Unit := do
  hand (.redzoneFree ptr)
  if ptr = 0 then return
  locked fun s => (redzoneFree s ptr).map fun s' => ((), s')

/-- The number of bytes that `__redzone_realloc` carries over. -/
def carried (s : Rt) (ptr size : ℕ) : ℕ :=
  match reallocSource s ptr with
  | some old => if old.freed then 0 else min old.userSize size
  | none => 0

/-- `__redzone_realloc`. -/
def lockedRealloc (ptr size : ℕ) (file : Option String) (line : ℤ) (sys : Sys) :
    Call (Option ℕ) := do
  hand (.redzoneRealloc ptr)
  if ptr = 0 then lockedMalloc size file line sys
  else if size = 0 then
    lockedFree ptr
    return none
  else
    match ← lockedMalloc size file line sys with
    | none => return none
    | some np =>
      let copy ← locked fun s => .ok (carried s ptr size, s)
      if copy ≠ 0 then
        modify fun c => { c with rt := { c.rt with mem := memmove c.rt.mem np ptr copy } }
      lockedFree ptr
      return some np

/-- `__redzone_owns`. -/
def redzoneOwns (ptr : ℕ) : Call Bool := do
  if ptr = 0 then return false
  locked fun s => .ok ((blockFromUserPtr s ptr).isSome, s)

/-- `__redzone_maybe_owns`. -/
def redzoneMaybeOwns (ptr : ℕ) : Call Bool := do
  let c ← get
  if ptr < headerSize then return false
  return decide (shadowLoad c.rt.shadow (ptr - 8) = rzPoison)

/-- `__redzone_usable_size`. -/
def redzoneUsableSize (ptr : ℕ) : Call ℕ := do
  if ptr = 0 then return 0
  locked fun s =>
    .ok (((blockFromUserPtr s ptr).bind fun i => s.blocks[i]?).elim 0 Block.userSize, s)

/-- `rz_sys_free`. -/
def sysFree (ptr : ℕ) : Call Unit := hand (.sysFree ptr)

/-- `rz_sys_realloc`. -/
def sysRealloc (ptr : ℕ) (answer : Option ℕ) : Call (Option ℕ) := do
  hand (.sysRealloc ptr)
  return answer

/-! ## The replacements -/

/-- `rz_i_malloc`. -/
def rzIMalloc (size : ℕ) (a : Answers) : Call (Option ℕ) := do
  if (← redzoneInRuntime) ≠ 0 then return a.sys.malloc
  lockedMalloc size none 0 a.sys

/-- `rz_i_calloc`. -/
def rzICalloc (nmemb size : ℕ) (a : Answers) : Call (Option ℕ) := do
  if (← redzoneInRuntime) ≠ 0 then
    -- the product is not checked for overflow
    match a.sys.malloc with
    | none => return none
    | some p =>
      modify fun c =>
        { c with rt := { c.rt with mem := memset c.rt.mem p 0 (nmemb * size % wordSize) } }
      return some p
  else lockedCalloc nmemb size none 0 a.sys

/-- `rz_i_realloc`. -/
def rzIRealloc (ptr size : ℕ) (a : Answers) : Call (Option ℕ) := do
  if (← redzoneInRuntime) ≠ 0 then sysRealloc ptr a.realloc
  else if ptr = 0 then lockedMalloc size none 0 a.sys
  else if ← redzoneOwns ptr then lockedRealloc ptr size none 0 a.sys
  else sysRealloc ptr a.realloc

/-- `rz_i_free`. -/
def rzIFree (ptr : ℕ) : Call Unit := do
  if ptr = 0 then return
  if (← redzoneInRuntime) ≠ 0 then
    if !(← redzoneMaybeOwns ptr) then sysFree ptr
  else if ← redzoneOwns ptr then lockedFree ptr
  else sysFree ptr

/-! ## The zone -/

/-- `rz_zone_size`. -/
def rzZoneSize (ptr : ℕ) : Call ℕ := redzoneUsableSize ptr

/-- `rz_zone_malloc`. -/
def rzZoneMalloc (size : ℕ) (a : Answers) : Call (Option ℕ) := lockedMalloc size none 0 a.sys

/-- `rz_zone_calloc`. -/
def rzZoneCalloc (nmemb size : ℕ) (a : Answers) : Call (Option ℕ) :=
  lockedCalloc nmemb size none 0 a.sys

/-- `rz_zone_valloc`. -/
def rzZoneValloc (size : ℕ) (a : Answers) : Call (Option ℕ) := lockedMalloc size none 0 a.sys

/-- `rz_zone_realloc`. -/
def rzZoneRealloc (ptr size : ℕ) (a : Answers) : Call (Option ℕ) := rzIRealloc ptr size a

/-- `rz_zone_free`. -/
def rzZoneFree (ptr : ℕ) : Call Unit := rzIFree ptr

/-! ## Introspection -/

/-- `rz_i_malloc_size`. -/
def rzIMallocSize (ptr : ℕ) (a : Answers) : Call ℕ := do
  if ptr = 0 then return 0
  if ← redzoneOwns ptr then redzoneUsableSize ptr
  else return a.defaultSize

/-- `rz_i_zone_from_ptr`.  The function it replaces may ask the registered zones, of which
`rz_zone` is one. -/
def rzIZoneFromPtr (ptr : ℕ) (a : Answers) : Call ZoneOf := do
  let owned ← if ptr = 0 then pure false else redzoneOwns ptr
  if owned then return .redzone
  if a.asksZones then discard (rzZoneSize ptr)
  return .other a.zoneFromPtr

/-! ## Entry points -/

/-- A call of an interposed function, or of a callback of the zone. -/
inductive Entry where
  | malloc (size : ℕ)
  | calloc (nmemb size : ℕ)
  | realloc (ptr size : ℕ)
  | free (ptr : ℕ)
  | mallocSize (ptr : ℕ)
  | zoneFromPtr (ptr : ℕ)
  | zoneSize (ptr : ℕ)
  | zoneMalloc (size : ℕ)
  | zoneCalloc (nmemb size : ℕ)
  | zoneValloc (size : ℕ)
  | zoneRealloc (ptr size : ℕ)
  | zoneFree (ptr : ℕ)
  deriving DecidableEq, Repr

/-- Perform the call. -/
def Entry.perform (a : Answers) : Entry → Call Unit
  | .malloc size => discard (rzIMalloc size a)
  | .calloc nmemb size => discard (rzICalloc nmemb size a)
  | .realloc ptr size => discard (rzIRealloc ptr size a)
  | .free ptr => rzIFree ptr
  | .mallocSize ptr => discard (rzIMallocSize ptr a)
  | .zoneFromPtr ptr => discard (rzIZoneFromPtr ptr a)
  | .zoneSize ptr => discard (rzZoneSize ptr)
  | .zoneMalloc size => discard (rzZoneMalloc size a)
  | .zoneCalloc nmemb size => discard (rzZoneCalloc nmemb size a)
  | .zoneValloc size => discard (rzZoneValloc size a)
  | .zoneRealloc ptr size => discard (rzZoneRealloc ptr size a)
  | .zoneFree ptr => rzZoneFree ptr

/-- How a call ends from a context, and the context at its end. -/
def exec {α : Type} (m : Call α) (c : Ctx) : Except Stop α × Ctx := (ExceptT.run m).run c

section Exec

variable {α β : Type} {c : Ctx}

@[simp] theorem exec_pure (a : α) : exec (pure a) c = (.ok a, c) := rfl

@[simp] theorem exec_throw (e : Stop) : exec (throw e : Call α) c = (.error e, c) := rfl

@[simp] theorem exec_get : exec (get : Call Ctx) c = (.ok c, c) := rfl

@[simp] theorem exec_set (c' : Ctx) : exec (set c' : Call Unit) c = (.ok (), c') := rfl

@[simp] theorem exec_modify (f : Ctx → Ctx) : exec (modify f : Call Unit) c = (.ok (), f c) := rfl

@[simp] theorem exec_bind (m : Call α) (f : α → Call β) :
    exec (m >>= f) c = match exec m c with
      | (.ok a, c') => exec (f a) c'
      | (.error e, c') => (.error e, c') := by
  unfold exec
  simp only [bind, ExceptT.bind, ExceptT.mk, ExceptT.run, StateT.bind, StateT.run,
    ExceptT.bindCont]
  rcases m c with ⟨r | r, c'⟩ <;> rfl

/-- A call that returns did so in its first part. -/
theorem exec_bind_ok {m : Call α} {f : α → Call β} {b : β} {c' : Ctx}
    (h : exec (m >>= f) c = (.ok b, c')) :
    ∃ a c₁, exec m c = (.ok a, c₁) ∧ exec (f a) c₁ = (.ok b, c') := by
  rw [exec_bind] at h
  rcases hm : exec m c with ⟨e | a, c₁⟩
  · simp [hm] at h
  · exact ⟨a, c₁, rfl, by simpa [hm] using h⟩

@[simp] theorem exec_map (f : α → β) (m : Call α) :
    exec (f <$> m) c = ((exec m c).1.map f, (exec m c).2) := by
  unfold exec
  simp only [Functor.map, ExceptT.map, ExceptT.mk, ExceptT.run, bind, StateT.bind, StateT.run]
  rcases m c with ⟨r | r, c'⟩ <;> rfl

@[simp] theorem exec_discard (m : Call α) :
    exec (discard m) c = ((exec m c).1.map fun _ => (), (exec m c).2) := by
  unfold discard exec
  simp only [Functor.mapConst, ExceptT.map, ExceptT.mk, ExceptT.run, Function.comp, bind,
    StateT.bind, StateT.run]
  rcases m c with ⟨r | r, c'⟩ <;> rfl

@[simp] theorem exec_hand (h : Handoff) :
    exec (hand h) c = (.ok (), { c with handed := c.handed ++ [h] }) := rfl

@[simp] theorem exec_redzoneInRuntime : exec redzoneInRuntime c = (.ok c.inRuntime, c) := rfl

@[simp] theorem exec_ite {p : Prop} [Decidable p] (m m' : Call α) :
    exec (if p then m else m') c = if p then exec m c else exec m' c := apply_ite (exec · c) ..

/-- A locked section that the thread can enter. -/
theorem exec_locked_of_eq_zero {f : Rt → Except Abort (α × Rt)} (h : c.inRuntime = 0) :
    exec (locked f) c =
      match f c.rt with
      | .error e => (.error (.abort e), { c with inRuntime := 1 })
      | .ok (a, rt) => (.ok a, { c with rt := rt }) := by
  unfold locked tableLock tableUnlock
  obtain ⟨rt, n, handed⟩ := c
  obtain rfl : n = 0 := h
  simp
  cases f rt with
  | error e => simp
  | ok r => simp [Except.map]

/-- A locked section inside another one. -/
theorem exec_locked_of_pos {f : Rt → Except Abort (α × Rt)} (h : 0 < c.inRuntime) :
    exec (locked f) c = (.error .selfDeadlock, c) := by
  unfold locked tableLock
  simp [h]

end Exec

/-! ## The process -/

/-- An event of a process under interposition: a step as without, or a call of an entry
point by a thread whose counter is `inRuntime`. -/
inductive Event where
  | op (o : Op)
  | call (inRuntime : ℕ) (e : Entry) (a : Answers)
  deriving DecidableEq, Repr

/-- How a call ends, and its context at the end. -/
def answer (w : World) (inRuntime : ℕ) (e : Entry) (a : Answers) : Except Stop Unit × Ctx :=
  exec (e.perform a) ⟨w.rt, inRuntime, []⟩

/-- The pointers that a call hands over. -/
def handoffs (w : World) : Event → List Handoff
  | .op _ => []
  | .call n e a => (answer w n e a).2.handed

/-- The extent that the system hands to a re-entrant allocation. -/
def Entry.sysExtent (a : Answers) : Entry → Option (ℕ × ℕ)
  | .malloc size => a.sys.malloc.map fun p => (p, p + size)
  | .calloc nmemb size => a.sys.malloc.map fun p => (p, p + nmemb * size % wordSize)
  | _ => none

/-- One event.  Not possible: a call that does not return, and an extent that the system
does not hand out. -/
def istep (w : World) : Event → Option World
  | .op o => w.stepWith World.FreshAnywhere o
  | .call n e a =>
    match answer w n e a with
    | (.error _, _) => none
    | (.ok (), c) =>
      if (∀ b ∈ c.rt.blocks.drop w.rt.blocks.length,
            w.FreshAnywhere b.realBase (b.realBase + b.totalSize)) ∧
          (n ≠ 0 → ∀ x ∈ e.sysExtent a, w.FreshAnywhere x.1 x.2)
      then some { w with rt := c.rt }
      else none

end Redzone.Interpose
