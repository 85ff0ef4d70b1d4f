/-
  Stack/Machine.lean --- runs of instrumented functions.

  The machine has the runtime, the registered globals, and the frames of all threads, the
  latest first.  A step executes one instruction of the top frame of a thread; a frame
  that executes a call waits until it returns, and code outside of the instrumented
  functions, which may call the runtime, runs in the meantime.

  At a wrapped alloca the pass calls `__redzone_stack_enter`, and before a `ReturnInst`
  `__redzone_stack_leave` for every wrapped alloca, all of which have been executed then.
  A frame can also be left without a return: an exception unwinds through it, or a
  `longjmp` or the end of the thread cuts it off (`unwind`).
-/
import Redzone.Shadow.Header
import Redzone.Stack.Body

set_option autoImplicit false

namespace Redzone.Stack

open Redzone.Foundation
open Redzone.Shadow hiding Block
open Redzone.Pass (Value TypeSize)

/-! ## Frames -/

/-- An alloca that has been executed, and where its memory starts. -/
structure Slot where
  alloca : Alloca
  base : ℕ
  deriving DecidableEq, Repr

/-- The variable that `__redzone_stack_enter` is called for. -/
def Slot.var (s : Slot) : Option StackVar := s.alloca.wrapped.map fun size => ⟨s.base, size⟩

/-- The memory of an alloca that is not wrapped, if its size is known. -/
def Slot.plain (s : Slot) : Option (ℕ × ℕ) :=
  if s.alloca.wrapped.isSome then none
  else
    match s.alloca.size with
    | some (.fixed size) => some (s.base, s.base + size)
    | _ => none

/-- The value of the alloca: for a wrapped one a pointer behind the left red zone. -/
def Slot.pointer (s : Slot) : ℕ :=
  if s.alloca.wrapped.isSome then s.base + redzoneSize else s.base

/-- A call of an instrumented function that has not been left. -/
structure Frame where
  tid : ℕ
  fn : Function
  /-- The next instruction: its block, and its place in the block. -/
  block : ℕ
  pc : ℕ
  env : Value → ℕ
  /-- The latest first. -/
  slots : List Slot
  /-- A call is being executed. -/
  waiting : Bool

def Frame.insts (fr : Frame) : List Inst := fr.fn.insts fr.block

/-- The wrapped allocas of the frame. -/
def Frame.vars (fr : Frame) : List StackVar := fr.slots.filterMap Slot.var

def Frame.plains (fr : Frame) : List (ℕ × ℕ) := fr.slots.filterMap Slot.plain

/-- An address at a constant offset. -/
def offset (a : ℕ) (off : ℤ) : ℕ := (((a : ℤ) + off) % (wordSize : ℤ)).toNat

/-- The address that a pointer has; none if it starts from an alloca that has not been
executed. -/
def Frame.addr (fr : Frame) (ptr : Value) : Option ℕ :=
  match fr.fn.strip ptr with
  | (.value v, off) => some (offset (fr.env v) off)
  | (.alloca a, off) =>
    (fr.slots.find? fun s => s.alloca = a).map fun s => offset s.pointer off

/-- Before a `ReturnInst` the wrapped allocas are left, the first one first. -/
def Frame.leave (fr : Frame) (rt : Rt) : Rt :=
  fr.vars.foldr (fun v rt => redzoneStackLeave rt v.base v.size) rt

/-- Give values to SSA values. -/
def assign (env : Value → ℕ) (vals : List (Value × ℕ)) : Value → ℕ :=
  vals.foldl (fun env x => Function.update env x.1 x.2) env

/-! ## The machine -/

structure Machine where
  rt : Rt
  internals : List GlobalVar
  externals : List GlobalVar
  frames : List Frame

def Machine.initial : Machine := ⟨.initial, [], [], []⟩

/-- The objects of the process. -/
def Machine.world (m : Machine) : World :=
  ⟨m.rt, m.frames.flatMap Frame.vars, m.internals, m.externals⟩

/-- The memory of allocas that are not wrapped. -/
def Machine.plains (m : Machine) : List (ℕ × ℕ) := m.frames.flatMap Frame.plains

def Machine.top (m : Machine) (t : ℕ) : Option Frame := m.frames.find? fun fr => fr.tid = t

/-- The frames without the top frame of thread `t`. -/
def Machine.rest (m : Machine) (t : ℕ) : List Frame := m.frames.eraseP fun fr => fr.tid = t

/-- Code outside of the instrumented functions runs on thread `t`. -/
def Machine.outside (m : Machine) (t : ℕ) : Bool := (m.top t).all Frame.waiting

/-- The chunks of an object and some memory are apart. -/
def Apart (o : Obj) (e : ℕ × ℕ) : Prop := roundUp8 o.top ≤ e.1 ∨ e.2 ≤ o.lo

instance (o : Obj) (e : ℕ × ℕ) : Decidable (Apart o e) := inferInstanceAs (Decidable (_ ∨ _))

/-- The stack has room for a wrapped alloca. -/
def Machine.FreshVar (m : Machine) (v : StackVar) : Prop :=
  m.world.FreshAnywhere v.base (v.base + v.size + 2 * redzoneSize) ∧ ∀ e ∈ m.plains, Apart v.obj e

instance (m : Machine) (v : StackVar) : Decidable (m.FreshVar v) :=
  inferInstanceAs (Decidable (_ ∧ _))

/-- The stack has room for an alloca that is not wrapped. -/
def Machine.FreshPlain (m : Machine) (s : Slot) : Prop :=
  ∀ e ∈ s.plain, e.2 < wordSize ∧ ∀ o ∈ m.world.objs, Apart o e

instance (m : Machine) (s : Slot) : Decidable (m.FreshPlain s) :=
  inferInstanceAs (Decidable (∀ e ∈ s.plain, _))

/-- A little-endian store of `n` bytes. -/
def storeBytes (mem : Bytes) (a n value : ℕ) : Bytes := fun x =>
  if a ≤ x ∧ x < a + n then UInt8.ofNat (value / 256 ^ (x - a)) else mem x

/-- `getTypeStoreSize`, at least. -/
def knownBytes : TypeSize → ℕ
  | .fixed n | .scalable n => n

/-! ## Steps -/

/-- The frame takes the place of the top frame of its thread. -/
def Machine.put (m : Machine) (fr : Frame) : Machine :=
  { m with frames := fr :: m.rest fr.tid }

/-- An alloca whose memory starts at `base`.  A static alloca that is executed again gives
the same memory. -/
def Machine.execAlloca (m : Machine) (fr : Frame) (a : Alloca) (base : ℕ) : Option Machine :=
  let next := { fr with pc := fr.pc + 1 }
  if ⟨a, base⟩ ∈ fr.slots then
    match a.wrapped with
    | some size => some { m.put next with rt := redzoneStackEnter m.rt base size }
    | none => some (m.put next)
  else if a.isStatic ∧ ∃ s ∈ fr.slots, s.alloca = a then none
  else
    let next := { next with slots := ⟨a, base⟩ :: fr.slots }
    match a.wrapped with
    | some size =>
      if m.FreshVar ⟨base, size⟩ then
        some { m.put next with rt := redzoneStackEnter m.rt base size }
      else none
    | none => if m.FreshPlain ⟨a, base⟩ then some (m.put next) else none

/-- One instruction; `value` is its result, the value that is stored, or where the memory
of an alloca starts. -/
def Machine.exec (m : Machine) (fr : Frame) (value : ℕ) : Inst → Option Machine
  | .alloca a => m.execAlloca fr a value
  | .load dst ptr _ =>
    (fr.addr ptr).map fun _ =>
      m.put { fr with pc := fr.pc + 1, env := Function.update fr.env dst value }
  | .store ptr size =>
    (fr.addr ptr).map fun a =>
      { m.put { fr with pc := fr.pc + 1 } with
        rt := { m.rt with mem := storeBytes m.rt.mem a (knownBytes size) value } }
  | .call _ => some (m.put { fr with pc := fr.pc + 1, waiting := true })
  | .other dst => some (m.put { fr with pc := fr.pc + 1, env := Function.update fr.env dst value })

/-- An event of thread `t`. -/
inductive Event where
  /-- An instrumented function is called. -/
  | enter (t : ℕ) (f : Function) (args : List (Value × ℕ))
  | step (t value : ℕ)
  /-- The call returns. -/
  | back (t value : ℕ)
  /-- A branch, with the values of the phis. -/
  | jump (t b : ℕ) (phis : List (Value × ℕ))
  | ret (t : ℕ)
  /-- The top frame is left without a return. -/
  | unwind (t : ℕ)
  /-- Control comes back to the top frame: to a landing pad, or behind `setjmp`. -/
  | land (t b pc : ℕ)
  /-- A step outside of the instrumented functions. -/
  | op (t : ℕ) (o : Op)

/-- The terminator of the block, where control has reached it. -/
def Frame.atEnd (fr : Frame) : Option Terminator :=
  if fr.pc = fr.insts.length ∧ fr.waiting = false then (fr.fn.blocks[fr.block]?).map Block.term
  else none

/-- A step outside: a heap call, a global that is registered, or a store. -/
def Machine.outsideStep (m : Machine) (o : Op) : Option Machine :=
  match o with
  | .stackEnter _ | .stackLeave _ => none
  | o =>
    match m.world.stepWith World.FreshAnywhere o with
    | none => none
    | some w =>
      if ∀ x ∈ w.objs, ∀ e ∈ m.plains, Apart x e then
        some { m with rt := w.rt, internals := w.internals, externals := w.externals }
      else none

/-- One event. -/
def mstep (m : Machine) : Event → Option Machine
  | .enter t f args =>
    if m.outside t then
      some { m with frames := ⟨t, f, 0, 0, assign (fun _ => 0) args, [], false⟩ :: m.frames }
    else none
  | .step t value =>
    match m.top t with
    | none => none
    | some fr =>
      if fr.waiting then none
      else
        match fr.insts[fr.pc]? with
        | none => none
        | some I => m.exec fr value I
  | .back t value =>
    match m.top t with
    | none => none
    | some fr =>
      if fr.waiting then
        match fr.insts[fr.pc - 1]? with
        | some (.call dst) =>
          some (m.put { fr with waiting := false, env := Function.update fr.env dst value })
        | _ => none
      else none
  | .jump t b phis =>
    match m.top t with
    | none => none
    | some fr =>
      match fr.atEnd with
      | some (.br succs) =>
        if b ∈ succs then some (m.put { fr with block := b, pc := 0, env := assign fr.env phis })
        else none
      | _ => none
  | .ret t =>
    match m.top t with
    | none => none
    | some fr =>
      match fr.atEnd with
      | some .ret => some { m with rt := fr.leave m.rt, frames := m.rest t }
      | _ => none
  | .unwind t =>
    match m.top t with
    | none => none
    | some _ => some { m with frames := m.rest t }
  | .land t b pc =>
    match m.top t with
    | none => none
    | some fr => some (m.put { fr with block := b, pc := pc, waiting := false })
  | .op t o => if m.outside t then m.outsideStep o else none

end Redzone.Stack
