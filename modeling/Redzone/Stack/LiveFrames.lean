/-
  Stack/LiveFrames.lean --- the poison on the stack belongs to live frames.

  As long as no frame with a wrapped alloca is left other than by a return, the shadow has
  the codes of the objects there are, and among these are the variables of live frames
  only.  A frame that is left in another way keeps its red zones poisoned: nothing calls
  `__redzone_stack_leave` for it.
-/
import Redzone.Stack.Machine

set_option autoImplicit false

namespace Redzone.Stack

open Redzone.Foundation
open Redzone.Shadow hiding Block
open Redzone.Pass (Value TypeSize)

/-! ## Frames -/

section Frames

variable {m : Machine} {t : ℕ} {fr fr' : Frame}

theorem Machine.top_tid (h : m.top t = some fr) : fr.tid = t := by
  have := List.find?_some h
  simpa using this

/-- The top frame of a thread, and the others. -/
theorem Machine.top_perm (h : m.top t = some fr) : m.frames.Perm (fr :: m.rest t) := by
  obtain ⟨hfr, before, after, hsplit, hbefore⟩ := List.find?_eq_some_iff_append.mp h
  have hrest : m.rest t = before ++ after := by
    unfold Machine.rest
    rw [hsplit, List.eraseP_append_right,
      List.eraseP_cons_of_pos (p := fun fr : Frame => decide (fr.tid = t)) hfr]
    intro fr' hfr'
    simpa using hbefore fr' hfr'
  rw [hrest, hsplit]
  exact List.perm_middle

theorem Machine.stack_perm (h : m.top t = some fr) :
    m.world.stack.Perm (fr.vars ++ (m.rest t).flatMap Frame.vars) :=
  (m.top_perm h).flatMap_right _

theorem Machine.plains_perm (h : m.top t = some fr) :
    m.plains.Perm (fr.plains ++ (m.rest t).flatMap Frame.plains) :=
  (m.top_perm h).flatMap_right _

theorem Machine.put_stack (h : m.top t = some fr) (htid : fr'.tid = fr.tid) :
    (m.put fr').world.stack = fr'.vars ++ (m.rest t).flatMap Frame.vars := by
  unfold Machine.world Machine.put
  rw [htid, m.top_tid h]
  rfl

theorem Machine.put_plains (h : m.top t = some fr) (htid : fr'.tid = fr.tid) :
    (m.put fr').plains = fr'.plains ++ (m.rest t).flatMap Frame.plains := by
  unfold Machine.plains Machine.put
  rw [htid, m.top_tid h]
  rfl

end Frames

/-! ## What an event does -/

/-- The runtime may have changed in memory only, and the objects and the memory of other
allocas are the same. -/
structure Quiet (m m' : Machine) : Prop where
  blocks : m'.rt.blocks = m.rt.blocks
  shadow : m'.rt.shadow = m.rt.shadow
  internals : m'.internals = m.internals
  externals : m'.externals = m.externals
  stack : m'.world.stack.Perm m.world.stack
  plains : m'.plains.Perm m.plains

/-- The effect of one event on the runtime, the objects, and the memory of other allocas. -/
inductive Effect (m : Machine) (ev : Event) (m' : Machine) : Prop where
  | quiet (h : Quiet m m')
  /-- A wrapped alloca is executed for the first time. -/
  | enter (v : StackVar) (hrt : m'.rt = redzoneStackEnter m.rt v.base v.size)
      (hint : m'.internals = m.internals) (hext : m'.externals = m.externals)
      (hstack : m'.world.stack.Perm (v :: m.world.stack)) (hplains : m'.plains.Perm m.plains)
      (hfresh : m.FreshVar v)
  /-- A wrapped alloca is executed again. -/
  | again (v : StackVar) (hrt : m'.rt = redzoneStackEnter m.rt v.base v.size)
      (hint : m'.internals = m.internals) (hext : m'.externals = m.externals)
      (hstack : m'.world.stack.Perm m.world.stack) (hplains : m'.plains.Perm m.plains)
      (hold : v ∈ m.world.stack)
  /-- An alloca that is not wrapped. -/
  | plain (s : Slot) (hrt : m'.rt = m.rt)
      (hint : m'.internals = m.internals) (hext : m'.externals = m.externals)
      (hstack : m'.world.stack.Perm m.world.stack)
      (hplains : m'.plains.Perm (s.plain.toList ++ m.plains)) (hfresh : m.FreshPlain s)
  /-- The top frame returns. -/
  | ret (fr : Frame) (hrt : m'.rt = fr.leave m.rt)
      (hint : m'.internals = m.internals) (hext : m'.externals = m.externals)
      (hstack : m.world.stack.Perm (fr.vars ++ m'.world.stack))
      (hplains : m.plains.Perm (fr.plains ++ m'.plains))
  /-- The top frame is left without a return. -/
  | unwind (t : ℕ) (fr : Frame) (hev : ev = .unwind t) (htop : m.top t = some fr)
      (hrt : m'.rt = m.rt)
      (hint : m'.internals = m.internals) (hext : m'.externals = m.externals)
      (hstack : m.world.stack.Perm (fr.vars ++ m'.world.stack))
      (hplains : m.plains.Perm (fr.plains ++ m'.plains))
  /-- A step outside of the instrumented functions. -/
  | outside (o : Op) (hstep : m.world.stepWith World.FreshAnywhere o = some m'.world)
      (hplains : m'.plains = m.plains) (hapart : ∀ x ∈ m'.world.objs, ∀ e ∈ m'.plains, Apart x e)

section Effects

variable {m m' : Machine} {t : ℕ} {fr fr' : Frame} {ev : Event}

/-- A frame that goes on with the same slots. -/
theorem quiet_put (fr' : Frame) (h : m.top t = some fr) (htid : fr'.tid = fr.tid)
    (hslots : fr'.slots = fr.slots)
    (mem : Bytes) : Quiet m { m.put fr' with rt := { m.rt with mem := mem } } := by
  have hvars : fr'.vars = fr.vars := by
    unfold Frame.vars
    rw [hslots]
  have hplains : fr'.plains = fr.plains := by
    unfold Frame.plains
    rw [hslots]
  refine ⟨rfl, rfl, rfl, rfl, ?_, ?_⟩
  · have hstack := m.put_stack h htid
    rw [hvars] at hstack
    exact (List.Perm.of_eq hstack).trans (m.stack_perm h).symm
  · have hstack := m.put_plains h htid
    rw [hplains] at hstack
    exact (List.Perm.of_eq hstack).trans (m.plains_perm h).symm

theorem effect_put (fr' : Frame) (h : m.top t = some fr) (htid : fr'.tid = fr.tid)
    (hslots : fr'.slots = fr.slots) : Effect m ev (m.put fr') :=
  .quiet (quiet_put fr' h htid hslots m.rt.mem)

/-- The frame has one more slot. -/
theorem slot_put (fr' : Frame) {s : Slot} (h : m.top t = some fr) (htid : fr'.tid = fr.tid)
    (hslots : fr'.slots = s :: fr.slots) :
    (m.put fr').world.stack.Perm (s.var.toList ++ m.world.stack) ∧
      (m.put fr').plains.Perm (s.plain.toList ++ m.plains) := by
  have hvars : fr'.vars = s.var.toList ++ fr.vars := by
    unfold Frame.vars
    rw [hslots, List.filterMap_cons]
    cases s.var with
    | none => rfl
    | some v => rfl
  have hplains : fr'.plains = s.plain.toList ++ fr.plains := by
    unfold Frame.plains
    rw [hslots, List.filterMap_cons]
    cases s.plain with
    | none => rfl
    | some e => rfl
  rw [m.put_stack h htid, m.put_plains h htid, hvars, hplains, List.append_assoc,
    List.append_assoc]
  exact ⟨(m.stack_perm h).symm.append_left _, (m.plains_perm h).symm.append_left _⟩

theorem Slot.plain_of_wrapped {s : Slot} {size : ℕ} (h : s.alloca.wrapped = some size) :
    s.var = some ⟨s.base, size⟩ ∧ s.plain = none := by
  unfold Slot.var Slot.plain
  rw [h]
  exact ⟨rfl, rfl⟩

theorem Slot.var_of_plain {s : Slot} (h : s.alloca.wrapped = none) : s.var = none := by
  unfold Slot.var
  rw [h]
  rfl

/-- An alloca. -/
theorem effect_of_execAlloca {a : Alloca} {base : ℕ} (htop : m.top t = some fr)
    (h : m.execAlloca fr a base = some m') : Effect m ev m' := by
  have htid : fr.tid = t := m.top_tid htop
  unfold Machine.execAlloca at h
  simp only at h
  split at h
  · rename_i hslot
    have hquiet := quiet_put { fr with pc := fr.pc + 1 } htop rfl rfl m.rt.mem
    split at h
    · rename_i size hwrapped
      obtain rfl := Option.some.inj h
      refine .again ⟨base, size⟩ rfl rfl rfl hquiet.stack hquiet.plains ?_
      refine (m.stack_perm htop).mem_iff.mpr (List.mem_append_left _ ?_)
      exact List.mem_filterMap.mpr ⟨_, hslot, (Slot.plain_of_wrapped hwrapped).1⟩
    · obtain rfl := Option.some.inj h
      exact .quiet hquiet
  · split at h
    · simp at h
    · have hput := slot_put { fr with pc := fr.pc + 1, slots := ⟨a, base⟩ :: fr.slots }
        (s := ⟨a, base⟩) htop rfl rfl
      split at h
      · rename_i size hwrapped
        obtain ⟨hvar, hplain⟩ := Slot.plain_of_wrapped (s := ⟨a, base⟩) hwrapped
        rw [hvar, hplain] at hput
        split at h
        · rename_i hfresh
          obtain rfl := Option.some.inj h
          exact .enter ⟨base, size⟩ rfl rfl rfl hput.1 hput.2 hfresh
        · simp at h
      · rename_i hwrapped
        rw [Slot.var_of_plain (s := ⟨a, base⟩) hwrapped] at hput
        split at h
        · rename_i hfresh
          obtain rfl := Option.some.inj h
          exact .plain ⟨a, base⟩ rfl rfl rfl hput.1 hput.2 hfresh
        · simp at h

/-- One instruction. -/
theorem effect_of_exec {value : ℕ} {I : Inst} (htop : m.top t = some fr)
    (h : m.exec fr value I = some m') : Effect m ev m' := by
  cases I with
  | alloca a => exact effect_of_execAlloca htop h
  | load dst ptr size =>
      obtain ⟨a, -, rfl⟩ := Option.map_eq_some_iff.mp h
      exact effect_put _ htop rfl rfl
  | store ptr size =>
      obtain ⟨a, -, rfl⟩ := Option.map_eq_some_iff.mp h
      exact .quiet (quiet_put { fr with pc := fr.pc + 1 } htop rfl rfl _)
  | call dst =>
      obtain rfl := Option.some.inj h
      exact effect_put _ htop rfl rfl
  | other dst =>
      obtain rfl := Option.some.inj h
      exact effect_put _ htop rfl rfl

/-- A step outside. -/
theorem effect_of_outside {o : Op} (h : m.outsideStep o = some m') : Effect m ev m' := by
  have hstack : ∀ w, m.world.stepWith World.FreshAnywhere o = some w →
      (∀ v, o ≠ .stackEnter v) → (∀ v, o ≠ .stackLeave v) → w.stack = m.world.stack := by
    intro w hw henter hleave
    cases o with
    | stackEnter v => exact absurd rfl (henter v)
    | stackLeave v => exact absurd rfl (hleave v)
    | heap c =>
        simp only [World.stepWith] at hw
        split at hw
        · simp at hw
        · split at hw
          · rw [← Option.some.inj hw]
          · simp at hw
    | store addr byte =>
        rw [← Option.some.inj hw]
    | globalRegister g | globalRegisterRight g =>
        simp only [World.stepWith] at hw
        split at hw
        · rw [← Option.some.inj hw]
        · simp at hw
  have hgo : (∀ v, o ≠ .stackEnter v) → (∀ v, o ≠ .stackLeave v) → ∀ w,
      m.world.stepWith World.FreshAnywhere o = some w → (∀ x ∈ w.objs, ∀ e ∈ m.plains, Apart x e) →
      { m with rt := w.rt, internals := w.internals, externals := w.externals } = m' →
      Effect m ev m' := by
    intro henter hleave w hw hapart hm
    have hw' : w = m'.world := by
      have hsame := hstack w hw henter hleave
      obtain rfl := hm
      obtain ⟨rt, stack, ints, exts⟩ := w
      obtain rfl : stack = m.world.stack := hsame
      rfl
    obtain rfl := hm
    refine .outside o ?_ rfl ?_
    · rw [← hw']
      exact hw
    · rw [← hw']
      exact hapart
  cases o with
  | stackEnter v | stackLeave v => simp [Machine.outsideStep] at h
  | heap c | store addr byte | globalRegister g | globalRegisterRight g =>
      simp only [Machine.outsideStep] at h
      split at h
      · simp at h
      · rename_i w hw
        split at h
        · rename_i hapart
          exact hgo (by simp) (by simp) w hw hapart (Option.some.inj h)
        · simp at h

/-- What an event does, with what it needs. -/
inductive Stepped (m : Machine) : Event → Machine → Prop
  | enter {t : ℕ} {f : Function} {args : List (Value × ℕ)} (hout : m.outside t) :
      Stepped m (.enter t f args)
        { m with frames := ⟨t, f, 0, 0, assign (fun _ => 0) args, [], false⟩ :: m.frames }
  | step {t value : ℕ} {fr : Frame} {I : Inst} {m' : Machine} (htop : m.top t = some fr)
      (hwait : fr.waiting = false) (hI : fr.insts[fr.pc]? = some I)
      (hexec : m.exec fr value I = some m') : Stepped m (.step t value) m'
  | back {t value : ℕ} {fr : Frame} {dst : Value} (htop : m.top t = some fr)
      (hwait : fr.waiting = true) (hcall : fr.insts[fr.pc - 1]? = some (.call dst)) :
      Stepped m (.back t value)
        (m.put { fr with waiting := false, env := Function.update fr.env dst value })
  | jump {t b : ℕ} {phis : List (Value × ℕ)} {fr : Frame} {succs : List ℕ}
      (htop : m.top t = some fr) (hend : fr.atEnd = some (.br succs)) (hb : b ∈ succs) :
      Stepped m (.jump t b phis)
        (m.put { fr with block := b, pc := 0, env := assign fr.env phis })
  | ret {t : ℕ} {fr : Frame} (htop : m.top t = some fr) (hend : fr.atEnd = some .ret) :
      Stepped m (.ret t) { m with rt := fr.leave m.rt, frames := m.rest t }
  | unwind {t : ℕ} {fr : Frame} (htop : m.top t = some fr) :
      Stepped m (.unwind t) { m with frames := m.rest t }
  | land {t b pc : ℕ} {fr : Frame} (htop : m.top t = some fr) :
      Stepped m (.land t b pc) (m.put { fr with block := b, pc := pc, waiting := false })
  | op {t : ℕ} {o : Op} {m' : Machine} (hout : m.outside t) (hstep : m.outsideStep o = some m') :
      Stepped m (.op t o) m'

theorem stepped (h : mstep m ev = some m') : Stepped m ev m' := by
  cases ev with
  | enter t f args =>
      simp only [mstep] at h
      split at h
      · rename_i hout
        obtain rfl := Option.some.inj h
        exact .enter hout
      · simp at h
  | step t value =>
      simp only [mstep] at h
      split at h
      · simp at h
      · rename_i fr htop
        split at h
        · simp at h
        · rename_i hwait
          split at h
          · simp at h
          · rename_i I hI
            exact .step htop (by simpa using hwait) hI h
  | back t value =>
      simp only [mstep] at h
      split at h
      · simp at h
      · rename_i fr htop
        split at h
        · rename_i hwait
          split at h
          · rename_i dst hcall
            obtain rfl := Option.some.inj h
            exact .back htop hwait hcall
          · simp at h
        · simp at h
  | jump t b phis =>
      simp only [mstep] at h
      split at h
      · simp at h
      · rename_i fr htop
        split at h
        · rename_i succs hend
          split at h
          · rename_i hb
            obtain rfl := Option.some.inj h
            exact .jump htop hend hb
          · simp at h
        · simp at h
  | ret t =>
      simp only [mstep] at h
      split at h
      · simp at h
      · rename_i fr htop
        split at h
        · rename_i hend
          obtain rfl := Option.some.inj h
          exact .ret htop hend
        · simp at h
  | unwind t =>
      simp only [mstep] at h
      split at h
      · simp at h
      · rename_i fr htop
        obtain rfl := Option.some.inj h
        exact .unwind htop
  | land t b pc =>
      simp only [mstep] at h
      split at h
      · simp at h
      · rename_i fr htop
        obtain rfl := Option.some.inj h
        exact .land htop
  | op t o =>
      simp only [mstep] at h
      split at h
      · rename_i hout
        exact .op hout h
      · simp at h

/-- Every event has one of the effects. -/
theorem effect_of_mstep (h : mstep m ev = some m') : Effect m ev m' := by
  cases stepped h with
  | enter hout => exact .quiet ⟨rfl, rfl, rfl, rfl, List.Perm.refl _, List.Perm.refl _⟩
  | step htop hwait hI hexec => exact effect_of_exec htop hexec
  | back htop hwait hcall => exact effect_put _ htop rfl rfl
  | jump htop hend hb => exact effect_put _ htop rfl rfl
  | ret htop hend => exact .ret _ rfl rfl rfl (m.stack_perm htop) (m.plains_perm htop)
  | unwind htop =>
      exact .unwind _ _ rfl htop rfl rfl rfl (m.stack_perm htop) (m.plains_perm htop)
  | land htop => exact effect_put _ htop rfl rfl
  | op hout hstep => exact effect_of_outside hstep

end Effects

/-! ## The invariant -/

/-- The shadow has the codes of the objects, and the memory of other allocas is apart from
them. -/
structure Machine.Inv (m : Machine) : Prop where
  painted : m.world.Painted
  apart : ∀ e ∈ m.plains, e.2 < wordSize ∧ ∀ o ∈ m.world.objs, Apart o e

/-- No frame with a wrapped alloca is left without a return. -/
def Tidy (m : Machine) : Event → Prop
  | .unwind t => ∀ fr ∈ m.top t, fr.vars = []
  | _ => True

instance (m : Machine) : (ev : Event) → Decidable (Tidy m ev)
  | .unwind t => inferInstanceAs (Decidable (∀ fr ∈ m.top t, fr.vars = []))
  | .enter .. | .step .. | .back .. | .jump .. | .ret _ | .land .. | .op .. => .isTrue trivial

section Inv

variable {m m' : Machine} {w : World} {st : List StackVar} {v : StackVar} {ev : Event}

/-- The order of the variables does not matter. -/
theorem painted_stack (h : w.Painted) (hp : w.stack.Perm st) :
    World.Painted { w with stack := st } := by
  refine Painted.perm h ?_
  exact ((hp.map _).append_right _).append_left _

/-- Leaving all variables of a frame. -/
theorem painted_leave {vars : List StackVar} (h : World.Painted { w with stack := vars ++ st }) :
    World.Painted { w with
      rt := vars.foldr (fun v rt => redzoneStackLeave rt v.base v.size) w.rt, stack := st } := by
  induction vars generalizing st with
  | nil => exact h
  | cons v vars ih =>
      have hperm : World.Painted { w with stack := vars ++ (v :: st) } :=
        painted_stack (w := { w with stack := v :: vars ++ st }) h List.perm_middle.symm
      have hrest := ih hperm
      have hleave := hrest.stackLeave (v := v) (List.mem_cons_self ..)
      simpa using hleave

theorem Frame.leave_blocks {fr : Frame} {rt : Rt} : (fr.leave rt).blocks = rt.blocks := by
  unfold Frame.leave
  induction fr.vars with
  | nil => rfl
  | cons v vars ih => exact ih

/-- A step outside that does not touch the stack. -/
theorem Machine.Inv.outside (h : m.Inv) {o : Op}
    (hstep : m.world.stepWith World.FreshAnywhere o = some m'.world)
    (hplains : m'.plains = m.plains) (hapart : ∀ x ∈ m'.world.objs, ∀ e ∈ m'.plains, Apart x e) :
    m'.Inv := by
  refine ⟨h.painted.stepWith soundFresh_anywhere hstep, fun e he => ⟨?_, fun x hx => ?_⟩⟩
  · rw [hplains] at he
    exact (h.apart e he).1
  · exact hapart x hx e he

/-- Entering a variable again changes nothing. -/
theorem painted_again (h : w.Painted) (hv : v ∈ w.stack) :
    World.Painted { w with rt := redzoneStackEnter w.rt v.base v.size } := by
  have hz : (⟨v.obj, stackRz⟩ : Zoned) ∈ w.zoned := by
    rw [World.zoned_eq]
    exact List.mem_append_right _ (List.mem_append_left _ (List.mem_map_of_mem hv))
  have hsame : shadowLoad (redzoneStackEnter w.rt v.base v.size).shadow =
      shadowLoad w.rt.shadow := by
    funext x
    rw [shadowLoad_stackEnter (h.laid _ hz)]
    split
    · rename_i hx
      exact (h.tiling.inside _ (List.mem_map_of_mem hz) x hx).symm
    · rfl
  refine ⟨h.laid, ?_⟩
  show Tiling (shadowLoad (redzoneStackEnter w.rt v.base v.size).shadow) 0 _
  rw [hsame]
  exact h.tiling

/-- Worlds with the same objects, up to the order of the variables. -/
structure SameObjs (w w' : World) : Prop where
  blocks : w'.rt.blocks = w.rt.blocks
  internals : w'.internals = w.internals
  externals : w'.externals = w.externals
  stack : w'.stack.Perm w.stack

theorem SameObjs.mem_iff {w' : World} {o : Obj} (h : SameObjs w w') : o ∈ w'.objs ↔ o ∈ w.objs := by
  rw [World.mem_objs, World.mem_objs, h.blocks, h.internals, h.externals]
  refine or_congr_right (or_congr_left ?_)
  exact exists_congr fun v => and_congr_left fun _ => h.stack.mem_iff

theorem SameObjs.painted {w' : World} (h : SameObjs w w') (hw : w.Painted)
    (hshadow : w'.rt.shadow = w.rt.shadow) : w'.Painted := by
  have hperm : w.zoned.Perm w'.zoned := by
    unfold World.zoned
    rw [h.blocks, h.internals, h.externals]
    exact ((h.stack.symm.map _).append_right _).append_left _
  unfold World.Painted
  rw [hshadow]
  exact Painted.perm hw hperm

/-- Every event that is tidy keeps the invariant. -/
theorem Machine.Inv.mstep (h : m.Inv) (htidy : Tidy m ev) (hstep : mstep m ev = some m') :
    m'.Inv := by
  -- the same objects, and no other plain memory
  have hkeep : ∀ w : World, SameObjs w m'.world → w.Painted → m'.world.rt.shadow = w.rt.shadow →
      (∀ o ∈ w.objs, o ∈ m.world.objs ∨ ∀ e ∈ m.plains, Apart o e) →
      (∀ e ∈ m'.plains, e ∈ m.plains) → m'.Inv := by
    intro w hsame hp hshadow hobjs hplains
    refine ⟨hsame.painted hp hshadow, fun e he => ⟨(h.apart e (hplains e he)).1, fun o ho => ?_⟩⟩
    rcases hobjs o (hsame.mem_iff.mp ho) with hold | hapart
    · exact (h.apart e (hplains e he)).2 o hold
    · exact hapart e (hplains e he)
  rcases effect_of_mstep hstep with hq | ⟨v, hrt, hint, hext, hstack, hplains, hfresh⟩ |
    ⟨v, hrt, hint, hext, hstack, hplains, hold⟩ | ⟨s, hrt, hint, hext, hstack, hplains, hfresh⟩ |
    ⟨fr, hrt, hint, hext, hstack, hplains⟩ | ⟨t, fr, hev, htop, hrt, hint, hext, hstack, hplains⟩ |
    ⟨o, hop, hplains, hapart⟩
  · exact hkeep m.world ⟨hq.blocks, hq.internals, hq.externals, hq.stack⟩ h.painted hq.shadow
      (fun o ho => Or.inl ho) fun e he => hq.plains.mem_iff.mp he
  · have hp := h.painted.stackEnter soundFresh_anywhere hfresh.1
    refine hkeep { m.world with
      rt := redzoneStackEnter m.rt v.base v.size, stack := v :: m.world.stack }
      ⟨congrArg Rt.blocks hrt, hint, hext, hstack⟩ hp (congrArg Rt.shadow hrt) ?_
      fun e he => hplains.mem_iff.mp he
    intro o ho
    rw [World.mem_objs] at ho
    rcases ho with hblock | ⟨v', hv', hvo⟩ | hglobal
    · exact Or.inl (World.mem_objs.mpr (Or.inl hblock))
    · rcases List.mem_cons.mp hv' with rfl | hv'
      · rw [← hvo]
        exact Or.inr hfresh.2
      · exact Or.inl (World.mem_objs.mpr (Or.inr (Or.inl ⟨v', hv', hvo⟩)))
    · exact Or.inl (World.mem_objs.mpr (Or.inr (Or.inr hglobal)))
  · have hp := painted_again h.painted hold
    exact hkeep { m.world with rt := redzoneStackEnter m.rt v.base v.size }
      ⟨congrArg Rt.blocks hrt, hint, hext, hstack⟩ hp (congrArg Rt.shadow hrt)
      (fun o ho => Or.inl ho) fun e he => hplains.mem_iff.mp he
  · have hsame : SameObjs m.world m'.world :=
      ⟨congrArg Rt.blocks hrt, hint, hext, hstack⟩
    refine ⟨hsame.painted h.painted (congrArg Rt.shadow hrt), fun e he => ?_⟩
    rcases List.mem_append.mp (hplains.mem_iff.mp he) with hnew | hold
    · obtain ⟨hlt, hapart⟩ := hfresh e (Option.mem_toList.mp hnew)
      exact ⟨hlt, fun o ho => hapart o (hsame.mem_iff.mp ho)⟩
    · exact ⟨(h.apart e hold).1, fun o ho => (h.apart e hold).2 o (hsame.mem_iff.mp ho)⟩
  · have hp := painted_leave (painted_stack h.painted hstack)
    refine hkeep { m.world with rt := fr.leave m.rt, stack := m'.world.stack }
      ⟨congrArg Rt.blocks hrt, hint, hext, List.Perm.refl _⟩ hp
      (congrArg Rt.shadow hrt) (fun o ho => Or.inl ?_)
      fun e he => hplains.mem_iff.mpr (List.mem_append_right _ he)
    rw [World.mem_objs] at ho ⊢
    simp only [Frame.leave_blocks] at ho
    rcases ho with hblock | ⟨v, hv, hvo⟩ | hglobal
    · exact Or.inl hblock
    · exact Or.inr (Or.inl ⟨v, hstack.mem_iff.mpr (List.mem_append_right _ hv), hvo⟩)
    · exact Or.inr (Or.inr hglobal)
  · subst hev
    have hnone : fr.vars = [] := htidy fr htop
    rw [hnone, List.nil_append] at hstack
    exact hkeep m.world ⟨congrArg Rt.blocks hrt, hint, hext, hstack.symm⟩ h.painted
      (congrArg Rt.shadow hrt) (fun o ho => Or.inl ho)
      fun e he => hplains.mem_iff.mpr (List.mem_append_right _ he)
  · exact h.outside hop hplains hapart

end Inv

/-! ## Live frames -/

/-- The chunk of `x` is a red zone of the stack, or the partial tail of a variable: it has
the code of the stack, or a count and belongs to no heap block and no global. -/
def StackPoison (m : Machine) (x : ℕ) : Prop :=
  shadowLoad m.rt.shadow x = stackRz ∨
    (0 < shadowLoad m.rt.shadow x ∧
      ∀ o ∈ World.objs { m.world with stack := [] }, ¬ (o.lo ≤ x ∧ x < roundUp8 o.top))

/-- The poison on the stack lies in wrapped allocas of frames that have not been left. -/
def PoisonLive (m : Machine) : Prop :=
  ∀ x, StackPoison m x →
    ∃ fr ∈ m.frames, ∃ v ∈ fr.vars, v.base ≤ x ∧ x < v.base + allocaTotal v.size

section Live

variable {m : Machine} {x : ℕ}

/-- The chunks of a variable are the memory of its wrapped alloca. -/
theorem allocaTotal_eq (v : StackVar) (hal : v.base % 16 = 0) :
    roundUp8 v.obj.top = v.base + allocaTotal v.size := by
  simp only [StackVar.obj, allocaTotal, roundUp8, redzoneSize]
  omega

/-- No object of another kind has the code of the stack. -/
theorem code_ne_stackRz {z : Zoned} (hzone : z.zone ≠ stackRz) : z.code x ≠ stackRz := by
  unfold Zoned.code
  split
  · split
    · split
      · decide
      · intro h
        have hneg : stackRz < 0 := by decide
        rw [← h] at hneg
        omega
    · decide
  · exact hzone

theorem Machine.Inv.poisonLive (h : m.Inv) : PoisonLive m := by
  intro x hx
  have hne : shadowLoad m.rt.shadow x ≠ 0 := by
    rcases hx with hcode | ⟨hpos, -⟩
    · rw [hcode]
      decide
    · exact hpos.ne'
  obtain ⟨z, hz, hmem, hlim⟩ := h.painted.exists_of_load hne
  have hload : shadowLoad m.rt.shadow x = z.code x := Painted.load_of_mem h.painted hz hmem hlim
  -- an object of another kind explains neither code
  have hother : z.obj ∈ World.objs { m.world with stack := [] } → z.zone ≠ stackRz → False := by
    intro hobj hzone
    rcases hx with hcode | ⟨-, hout⟩
    · rw [hload] at hcode
      exact code_ne_stackRz hzone hcode
    · exact hout z.obj hobj hmem
  have hlaid := h.painted.laid z hz
  rw [World.zoned_eq] at hz
  rcases List.mem_append.mp hz with hblock | hz
  · obtain ⟨b, hb, rfl⟩ := List.mem_map.mp hblock
    refine (hother (World.mem_objs.mpr (Or.inl ⟨b, hb, rfl⟩)) ?_).elim
    show rzPoison ≠ stackRz
    decide
  rcases List.mem_append.mp hz with hstack | hglobal
  · obtain ⟨v, hv, rfl⟩ := List.mem_map.mp hstack
    obtain ⟨fr, hfr, hvfr⟩ := List.mem_flatMap.mp hv
    refine ⟨fr, hfr, v, hvfr, hmem.1, ?_⟩
    rw [← allocaTotal_eq v hlaid.lo_aligned]
    exact hmem.2
  · have hzone : globalRz ≠ stackRz := by decide
    rcases List.mem_append.mp hglobal with hint | hext
    · obtain ⟨g, hg, rfl⟩ := List.mem_map.mp hint
      exact (hother (World.mem_objs.mpr (Or.inr (Or.inr (Or.inl ⟨g, hg, rfl⟩)))) hzone).elim
    · obtain ⟨g, hg, rfl⟩ := List.mem_map.mp hext
      exact (hother (World.mem_objs.mpr (Or.inr (Or.inr (Or.inr ⟨g, hg, rfl⟩)))) hzone).elim

theorem inv_initial : Machine.initial.Inv := ⟨painted_initial, by simp [Machine.plains,
  Machine.initial]⟩

/-- In every state of a run in which no frame with a wrapped alloca is left without a
return, the poison on the stack lies in wrapped allocas of live frames. -/
theorem poisonLive_of_run {evs : List Event} (htidy : EveryStep mstep Tidy .initial evs)
    (hrun : run mstep .initial evs = some m) : PoisonLive m := by
  refine run_induction (P := fun _ m => PoisonLive m ∧ m.Inv)
    ⟨inv_initial.poisonLive, inv_initial⟩ ?_ evs htidy hrun |>.1
  intro es ev n n' _ hev hn hstep
  have hinv := hn.2.mstep hev hstep
  exact ⟨hinv.poisonLive, hinv⟩

end Live

/-- A function with one alloca. -/
def oneAlloca (a : Alloca) : Function :=
  ⟨[⟨[.alloca a], .ret⟩], fun v => (.value v, 0), by simp [Clobbers, Inst.pointer]⟩

/-- A variable of 8 bytes. -/
def smallAlloca : Alloca := ⟨0, true, some (.fixed 8), 8⟩

/-- A variable that is aligned to 32 bytes, and is not wrapped. -/
def wideAlloca : Alloca := ⟨0, true, some (.fixed 32), 32⟩

/-- A function with a variable returns, and one without wrapped allocas is cut off. -/
def returnRun : List Event :=
  [.enter 0 (oneAlloca smallAlloca) [], .step 0 0x7000, .ret 0,
    .enter 0 (oneAlloca wideAlloca) [], .step 0 0x7000, .unwind 0]

theorem poisonLive_of_run_returnRun : ∃ m, run mstep .initial returnRun = some m ∧ PoisonLive m := by
  have hsome : (run mstep .initial returnRun).isSome = true := by decide +kernel
  obtain ⟨m, hm⟩ := Option.isSome_iff_exists.mp hsome
  exact ⟨m, hm, poisonLive_of_run (by decide +kernel) hm⟩

/-- The function with a variable is cut off, and another one uses the same stack. -/
def cutOffRun : List Event :=
  [.enter 0 (oneAlloca smallAlloca) [], .step 0 0x7000, .unwind 0,
    .enter 0 (oneAlloca wideAlloca) [], .step 0 0x7000]

/-- The red zone of the frame that was cut off is still poisoned, and the variable of the
later frame is reported. -/
theorem poison_after_unwind : ∃ m, run mstep .initial cutOffRun = some m ∧ ¬ PoisonLive m ∧
    redzoneCheck m.rt 0x7000 8 false none 0 ≠ .ok () := by
  have hany : (run mstep .initial cutOffRun).any (fun m : Machine =>
      decide (shadowLoad m.rt.shadow 0x7000 = stackRz) && m.world.stack.isEmpty) = true := by
    decide +kernel
  obtain ⟨m, hm, hstate⟩ := (Option.any_eq_true ..).mp hany
  rw [Bool.and_eq_true, decide_eq_true_eq, List.isEmpty_iff] at hstate
  obtain ⟨hload, hstack⟩ := hstate
  refine ⟨m, hm, ?_, ?_⟩
  · intro h
    obtain ⟨fr, hfr, v, hv, -⟩ := h 0x7000 (Or.inl hload)
    have hmem : v ∈ m.world.stack := List.mem_flatMap.mpr ⟨fr, hfr, hv⟩
    simp [hstack] at hmem
  · intro hok
    have hgood := ((redzoneCheck_ok (by decide)).mp hok).1
    simp [bytePoisoned, hload] at hgood

end Redzone.Stack
