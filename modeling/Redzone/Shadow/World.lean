/-
  Shadow/World.lean --- runs of the runtime in a process.

  The world adds to the runtime what only the process knows: which stack variables are
  active and which globals have been registered.  A step is a heap call, a stack
  variable that is entered or left, the registration of a global, or a store of the
  program.  Extents come from the system allocator, the stack and the linker; a step is
  possible only if the extent it is given is 16-aligned, below `SHADOW_LIMIT` and
  disjoint from the extents of all objects there are (`Fresh`).

  Every kind of object is an `Obj`: an extent with the user bytes inside.  `Guarded`
  relates a shadow to a list of objects in the terms of `Foundation.Regions`.
-/
import Redzone.Foundation.Regions
import Redzone.Foundation.Transition
import Redzone.Shadow.Check

set_option autoImplicit false

namespace Redzone.Shadow

open Redzone.Foundation

/-! ## Objects -/

/-- An object: its extent, its user bytes, and whether they are in use. -/
structure Obj where
  lo : ℕ
  top : ℕ
  userLo : ℕ
  userHi : ℕ
  live : Bool
  deriving DecidableEq, Repr

/-- The chunks of an object as a region: the extent is rounded up to 8 bytes. -/
def Obj.region (o : Obj) : Region := ⟨o.lo, roundUp8 o.top, o.userLo, o.userHi, o.live⟩

/-- The layout that the pass and `rz_allocate` give an object. -/
structure Obj.OK (o : Obj) : Prop where
  lo_aligned : o.lo % 16 = 0
  lo_le : o.lo ≤ o.userLo
  /-- A left red zone, or none. -/
  left : o.userLo = o.lo ∨ o.lo + redzoneSize ≤ o.userLo
  user_aligned : o.userLo % 8 = 0
  user_le : o.userLo ≤ o.userHi
  guard : o.userHi + redzoneSize ≤ o.top
  top_le : o.top ≤ shadowLimit

/-- A variable on the stack, in the extent that starts at `base`. -/
structure StackVar where
  base : ℕ
  size : ℕ
  deriving DecidableEq, Repr

/-- A global whose data start at `data`. -/
structure GlobalVar where
  data : ℕ
  size : ℕ
  deriving DecidableEq, Repr

def Block.obj (b : Block) : Obj :=
  ⟨b.realBase, b.realBase + b.totalSize, b.userAddr, b.userAddr + b.userSize, !b.freed⟩

def StackVar.obj (v : StackVar) : Obj :=
  ⟨v.base, v.base + v.size + 2 * redzoneSize, v.base + redzoneSize,
    v.base + redzoneSize + v.size, true⟩

/-- An internal global has a red zone on both sides. -/
def GlobalVar.internalObj (g : GlobalVar) : Obj :=
  ⟨g.data - redzoneSize, g.data + g.size + redzoneSize, g.data, g.data + g.size, true⟩

/-- An external global has a trailing red zone only. -/
def GlobalVar.externalObj (g : GlobalVar) : Obj :=
  ⟨g.data, g.data + g.size + redzoneSize, g.data, g.data + g.size, true⟩

/-! ## The world -/

/-- The runtime and the objects of the process. -/
structure World where
  rt : Rt
  stack : List StackVar
  internals : List GlobalVar
  externals : List GlobalVar

/-- The process before any object exists. -/
def World.initial : World := ⟨.initial, [], [], []⟩

/-- All objects, freed heap blocks included. -/
def World.objs (w : World) : List Obj :=
  w.rt.blocks.map Block.obj ++ (w.stack.map StackVar.obj ++
    (w.internals.map GlobalVar.internalObj ++ w.externals.map GlobalVar.externalObj))

/-- An extent that the system may hand out: aligned, covered by the shadow, and disjoint
from every object. -/
def World.Fresh (w : World) (lo top : ℕ) : Prop :=
  lo % 16 = 0 ∧ top ≤ shadowLimit ∧ ∀ o ∈ w.objs, top ≤ o.lo ∨ o.top ≤ lo

instance (w : World) (lo top : ℕ) : Decidable (w.Fresh lo top) :=
  inferInstanceAs (Decidable (_ ∧ _))

/-- A call into the allocator, with what the system answers. -/
inductive HeapCall where
  | malloc (size : ℕ) (file : Option String) (line : ℤ) (sys : Sys)
  | alignedAlloc (alignment size : ℕ) (file : Option String) (line : ℤ) (sys : Sys)
  | posixMemalign (memptr alignment size : ℕ) (file : Option String) (line : ℤ) (sys : Sys)
  | calloc (nmemb size : ℕ) (file : Option String) (line : ℤ) (sys : Sys)
  | realloc (ptr size : ℕ) (file : Option String) (line : ℤ) (sys : Sys)
  | free (ptr : ℕ)
  deriving DecidableEq, Repr

/-- The runtime after a call. -/
def Rt.heapCall (s : Rt) : HeapCall → Except Abort Rt
  | .malloc size file line sys => (redzoneMalloc s size file line sys).map Prod.snd
  | .alignedAlloc alignment size file line sys =>
    (redzoneAlignedAlloc s alignment size file line sys).map Prod.snd
  | .posixMemalign memptr alignment size file line sys =>
    (redzonePosixMemalign s memptr alignment size file line sys).map Prod.snd
  | .calloc nmemb size file line sys => (redzoneCalloc s nmemb size file line sys).map Prod.snd
  | .realloc ptr size file line sys => (redzoneRealloc s ptr size file line sys).map Prod.snd
  | .free ptr => redzoneFree s ptr

/-- One step of the process. -/
inductive Op where
  | heap (c : HeapCall)
  | stackEnter (v : StackVar)
  | stackLeave (v : StackVar)
  | globalRegister (g : GlobalVar)
  | globalRegisterRight (g : GlobalVar)
  /-- The program stores a byte. -/
  | store (addr : ℕ) (byte : UInt8)
  deriving DecidableEq, Repr

/-- Perform one step.  Not possible: a call that aborts, an extent that the system does
not hand out, and leaving a variable that is not active. -/
def World.step (w : World) : Op → Option World
  | .heap c =>
    match w.rt.heapCall c with
    | .error _ => none
    | .ok rt =>
      if ∀ b ∈ rt.blocks.drop w.rt.blocks.length, w.Fresh b.realBase (b.realBase + b.totalSize)
      then some { w with rt := rt }
      else none
  | .stackEnter v =>
    if w.Fresh v.base (v.base + v.size + 2 * redzoneSize) then
      some { w with rt := redzoneStackEnter w.rt v.base v.size, stack := v :: w.stack }
    else none
  | .stackLeave v =>
    if v ∈ w.stack then
      some { w with rt := redzoneStackLeave w.rt v.base v.size, stack := w.stack.erase v }
    else none
  | .globalRegister g =>
    if redzoneSize ≤ g.data ∧ w.Fresh (g.data - redzoneSize) (g.data + g.size + redzoneSize) then
      some { w with rt := redzoneGlobalRegister w.rt g.data g.size, internals := g :: w.internals }
    else none
  | .globalRegisterRight g =>
    if w.Fresh g.data (g.data + g.size + redzoneSize) then
      some { w with
        rt := redzoneGlobalRegisterRight w.rt g.data g.size, externals := g :: w.externals }
    else none
  | .store addr byte =>
    some { w with rt := { w.rt with mem := Function.update w.rt.mem addr byte } }

/-- The world after `ops`. -/
def worldRun (ops : List Op) : Option World := run World.step .initial ops

/-! ## Shadow and objects -/

/-- The objects are laid out properly, and the shadow poisons what they guard. -/
structure Guarded (sh : ShadowMap) (objs : List Obj) : Prop where
  ok : ∀ o ∈ objs, o.OK
  tiled : Tiled (fun x => bytePoisoned sh x = true) (objs.map Obj.region)

section Guarded

variable {sh sh' : ShadowMap} {objs objs' : List Obj} {o o' : Obj} {x : ℕ}

theorem Obj.OK.wf (h : o.OK) : o.region.WF := by
  obtain ⟨hlo, hle, -, -, huser, hguard, -⟩ := h
  refine ⟨hle, huser, ?_⟩
  simp only [Obj.region, roundUp8]
  omega

/-- Aligned extents that are disjoint stay disjoint when they are rounded up. -/
theorem Obj.region_disjoint (h : o.lo % 16 = 0) (h' : o'.lo % 16 = 0)
    (hd : o.top ≤ o'.lo ∨ o'.top ≤ o.lo) : o.region.Disjoint o'.region := by
  simp only [Region.Disjoint, Obj.region, roundUp8]
  omega

theorem guarded_nil : Guarded .zero [] :=
  ⟨by simp, tiled_nil fun x => by simp [bytePoisoned, shadowLoad, ShadowMap.zero]⟩

theorem Guarded.perm (h : Guarded sh objs) (hp : objs.Perm objs') : Guarded sh objs' :=
  ⟨fun o ho => h.ok o (hp.mem_iff.mpr ho), h.tiled.perm (hp.map _)⟩

/-- An object comes into being: its user bytes become addressable, the rest of its
chunks poisoned, and nothing else changes. -/
theorem Guarded.insert (h : Guarded sh objs) (hok : o.OK) (hlive : o.live = true)
    (hfresh : ∀ o' ∈ objs, o.top ≤ o'.lo ∨ o'.top ≤ o.lo)
    (hsh : ∀ x, bytePoisoned sh' x =
      if o.lo ≤ x ∧ x < roundUp8 o.top then decide ¬ (o.userLo ≤ x ∧ x < o.userHi)
      else bytePoisoned sh x) : Guarded sh' (o :: objs) := by
  refine ⟨List.forall_mem_cons.mpr ⟨hok, h.ok⟩, ?_⟩
  rw [List.map_cons]
  refine h.tiled.insert hok.wf ?_ ?_ ?_
  · intro r hr
    obtain ⟨o', ho', rfl⟩ := List.mem_map.mp hr
    exact Obj.region_disjoint hok.lo_aligned (h.ok o' ho').lo_aligned (hfresh o' ho')
  · intro x hx
    have hin : o.lo ≤ x ∧ x < roundUp8 o.top := hx
    rw [hsh x, if_pos hin, decide_eq_true_eq, Region.Guards, Region.User]
    simp [Obj.region, hlive, Region.Mem, hin]
  · intro x hx
    have hout : ¬ (o.lo ≤ x ∧ x < roundUp8 o.top) := hx
    rw [hsh x, if_neg hout]

/-- An object goes away: its chunks become addressable. -/
theorem Guarded.remove (h : Guarded sh (o :: objs))
    (hsh : ∀ x, bytePoisoned sh' x =
      if o.lo ≤ x ∧ x < roundUp8 o.top then false else bytePoisoned sh x) : Guarded sh' objs := by
  refine ⟨fun o' ho' => h.ok o' (List.mem_cons_of_mem o ho'), ?_⟩
  have htiled := h.tiled
  rw [List.map_cons] at htiled
  refine htiled.remove ?_ ?_
  · intro x hx
    have hin : o.lo ≤ x ∧ x < roundUp8 o.top := hx
    rw [hsh x, if_pos hin]
    simp
  · intro x hx
    have hout : ¬ (o.lo ≤ x ∧ x < roundUp8 o.top) := hx
    rw [hsh x, if_neg hout]

/-- An object dies: its user bytes become poisoned as well. -/
theorem Guarded.kill (h : Guarded sh (o :: objs))
    (hsh : ∀ x, bytePoisoned sh' x =
      if o.userLo ≤ x ∧ x < roundUp8 o.userHi then true else bytePoisoned sh x) :
    Guarded sh' ({ o with live := false } :: objs) := by
  have hok := h.ok o (List.mem_cons_self ..)
  have hok' : Obj.OK { o with live := false } := ⟨hok.lo_aligned, hok.lo_le, hok.left,
    hok.user_aligned, hok.user_le, hok.guard, hok.top_le⟩
  refine ⟨List.forall_mem_cons.mpr ⟨hok', fun o' ho' => h.ok o' (List.mem_cons_of_mem o ho')⟩, ?_⟩
  have htiled := h.tiled
  rw [List.map_cons] at htiled ⊢
  have hdisj := (List.pairwise_cons.mp htiled.disjoint).1
  have hround : roundUp8 o.userHi ≤ roundUp8 o.top := by
    have := hok.guard
    simp only [roundUp8]
    omega
  refine htiled.replace hok'.wf (fun x => Iff.rfl) hdisj ?_ ?_
  · intro x hx
    have hguards : Region.Guards (Obj.region { o with live := false }) x :=
      ⟨hx, fun hu => absurd hu.1 (by simp [Obj.region])⟩
    refine iff_of_true ?_ hguards
    rw [hsh x]
    by_cases hu : o.userLo ≤ x ∧ x < roundUp8 o.userHi
    · rw [if_pos hu]
    · rw [if_neg hu]
      refine (htiled.bad_of_mem (List.mem_cons_self ..) hx).mpr fun huser => hu ?_
      obtain ⟨-, hlo, hhi⟩ := huser
      refine ⟨hlo, hhi.trans_le ?_⟩
      simp only [Obj.region, roundUp8]
      omega
  · intro x hx
    have hout : ¬ (o.userLo ≤ x ∧ x < roundUp8 o.userHi) :=
      fun hu => hx ⟨hok.lo_le.trans hu.1, hu.2.trans_le hround⟩
    rw [hsh x, if_neg hout]

end Guarded

end Redzone.Shadow
