/-
  Pass/Preservation.lean --- the address mode keeps what a function does.

  A function that the pass has been over does, event by event, what it has done before:
  an access is made after its check, an alloca is put inside of a padded one, an
  allocation or memory function is called by its wrapper, with the arguments and the
  result of the call, and the variables are left before a `ret` (`unfolds`, `leftBy`).
  Nothing else happens, and nothing is left out, for whatever the symbols stand for and
  whatever the outside answers (`behaves_run_iff`).

  Where a global is replaced by its data, and an allocation function by its wrapper, the
  function before the pass is read with these in the place of the symbols.
-/
import Mathlib.Data.List.GetD
import Redzone.Pass.Behaviour
import Redzone.Pass.AllocatorUses

set_option autoImplicit false

namespace Redzone.Pass.AddressMode

open Redzone.Foundation
open Redzone.Pass (Value TypeSize DebugLoc startsWith kRedzone stackTotal)

/-! ## What becomes of an event -/

section Definitions

variable {D : Type}

/-- `getLoc`. -/
def locValues (ι : Interp D) : Option DebugLoc → List D
  | some loc => [ι.str loc.filename, ι.int 32 loc.line]
  | none => [ι.null, ι.int 32 0]

/-- An argument of the new call, from the values of the old ones. -/
def Forward.value (ι : Interp D) (xs : List D) : Forward → D
  | .arg i => xs.getD i ι.poison
  | .cast bits i =>
    ι.app (ι.app (ι.op "zextOrTrunc") (ι.int 64 bits)) (xs.getD i ι.poison)

/-- The arguments of the new call. -/
def Redirect.values (ι : Interp D) (r : Redirect) (xs : List D) (loc : Option DebugLoc) :
    List D :=
  r.front.map (Forward.value ι xs) ++ (if r.hasLoc then locValues ι loc else []) ++
    r.tailStart.elim [] xs.drop

/-- The event of a call that is rebuilt, and any other event as it is. -/
def Inst.redirected (ι : Interp D) (skip : Bool) : Inst → Event D → Event D
  | .call _ c loc, .call f xs x =>
    match c.getCalledFunction.bind (callRedirect skip) with
    | some r => .call (ι.func r.callee) (r.values ι xs loc) x
    | none => .call f xs x
  | .mem kind _ _ _ loc, .mem kind' d s n =>
    if skip then .mem kind' d s n
    else .call (ι.func kind.redirect.callee) (kind.redirect.values ι [d, s, n] loc) none
  | _, e => e

/-- The check of an access. -/
def checkEvent (ι : Interp D) (ptr : D) (size : TypeSize) (isWrite : Bool)
    (loc : Option DebugLoc) : Event D :=
  let bytes := match size with
    | .fixed bytes => bytes
    | .scalable bytes => bytes
  .check ([ptr, ι.int 64 bytes, ι.int 32 (if isWrite then 1 else 0)] ++ locValues ι loc)

/-- A hook of the stack, for the padded alloca at `w` around a variable. -/
def hookEvent (ι : Interp D) (callee : String) (w : D) (Sz : ℕ) : Event D :=
  .call (ι.func callee) [w, ι.int 64 Sz] none

/-- What happens in the place of an event of the instruction, where an access has a check if
it is guarded and a padded alloca is at `w`. -/
def Inst.unfolds (ι : Interp D) (skip guarded : Bool) (w : D) : Inst → Event D → List (Event D)
  | .load _ _ _ loc, .load ptr size x =>
    if guarded then [checkEvent ι ptr size false loc, .load ptr size x] else [.load ptr size x]
  | .store _ _ _ loc, .store value ptr size =>
    if guarded then [checkEvent ι ptr size true loc, .store value ptr size]
    else [.store value ptr size]
  | .alloca a, .alloca a' x =>
    match if skip then none else a.wrapped with
    | none => [.alloca a' x]
    | some Sz =>
      [.padded (stackTotal Sz) w, .other [w, ι.int 64 kRedzone] (some x),
        hookEvent ι "__redzone_stack_enter" w Sz]
  | I, e => [I.redirected ι skip e]

/-- Where the padded allocas are after an instruction. -/
def Inst.pads (skip : Bool) (w : D) (π : Value → D) : Inst → Value → D
  | .alloca a => if skip then π else a.wrapped.elim π fun _ => Function.update π a.id w
  | _ => π

/-- What is said of an event at place `k` of a block, given which accesses are guarded. -/
def Inst.Tells (ι : Interp D) (skip : Bool) (guarded : ℕ → Bool) (k : ℕ) (I : Inst)
    (π : Value → D) (e : Event D) (out : List (Event D)) (π' : Value → D) : Prop :=
  ∃ w, out = I.unfolds ι skip (guarded k) w e ∧ π' = I.pads skip w π

/-- What happens before the last event of a visit: a `ret` leaves the variables. -/
def leftBy (ι : Interp D) (vars : List (Stack.Alloca × ℕ)) (π : Value → D) :
    Event D → List (Event D)
  | .ret _ => vars.map fun p => hookEvent ι "__redzone_stack_leave" (π p.1.id) p.2
  | _ => []

/-- The accesses of a block that get a check. -/
def guards (skip : Bool) (strip : Value → Stack.Base × ℤ) (insts : List Inst) (k : ℕ) : Bool :=
  !skip && !Stack.skipped strip (insts.map Inst.shape) k

/-- The variables of a function that are wrapped, if it is instrumented. -/
def Config.vars (cfg : Config) (F : Func) : List (Stack.Alloca × ℕ) :=
  if cfg.skipInstr F then [] else F.stackVars

/-- What becomes of a visit. -/
def Config.Tells (cfg : Config) (ι : Interp D) (F : Func) (π : Value → D) (v w : Visit D)
    (π' : Value → D) : Prop :=
  ∃ B, F.blocks[v.block]? = some B ∧ w.block = v.block ∧ w.last = v.last ∧
    ∃ out, Expanded
        (Inst.Tells ι (cfg.skipInstr F) (guards (cfg.skipInstr F) (cfg.strip F.name) B.insts)) 0
        B.insts π v.events out π' ∧
      w.events = out ++ leftBy ι (cfg.vars F) π' v.last

/-- What becomes of a behaviour.  The runtime's own functions are left as they are. -/
def Config.Rewrites (cfg : Config) (ι : Interp D) (F : Func) (π : Value → D)
    (T T' : List (Visit D)) : Prop :=
  if isRuntimeName F.name then T' = T else Threaded (cfg.Tells ι F) π T T'

end Definitions

def Atom.isPadded : Atom → Bool
  | .padded _ => true
  | _ => false

/-- An operand that the pass has not made. -/
def Val.Plain (v : Val) : Prop := ∀ a ∈ v.atoms, a.isPadded = false

/-- An instruction that the pass has not made. -/
def Inst.Plain : Inst → Prop
  | .padded .. | .check .. => False
  | I => ∀ v ∈ I.operands, v.Plain

/-- A function that the pass has not been over. -/
def Func.Plain (F : Func) : Prop :=
  ∀ B ∈ F.blocks, (∀ I ∈ B.insts, I.Plain) ∧ ∀ v ∈ B.term.operands, v.Plain

instance : DecidablePred Val.Plain := fun v =>
  inferInstanceAs (Decidable (∀ a ∈ v.atoms, a.isPadded = false))

instance : DecidablePred Inst.Plain
  | .padded .. | .check .. => inferInstanceAs (Decidable False)
  | .load .. | .store .. | .mem .. | .call .. | .alloca .. | .other .. =>
    inferInstanceAs (Decidable (∀ v ∈ Inst.operands _, v.Plain))

instance : DecidablePred Func.Plain := fun F =>
  inferInstanceAs (Decidable (∀ B ∈ F.blocks, (∀ I ∈ B.insts, I.Plain) ∧
    ∀ v ∈ B.term.operands, v.Plain))

/-- A function as the phase over the functions finds it. -/
def Module.globalsWrapped (M : Module) (F : Func) : Func :=
  F.mapVals (Term.bind (globalSub M.targets))

/-- What the symbols stand for before a run, given what they stand for after it. -/
def Module.before {D : Type} (M : Module) (ι : Interp D) : Interp D :=
  ι.pull fun a => M.after (.atom a)

/-! ## Values of rebuilt calls -/

section Values

variable {D : Type} {ι : Interp D} {ρ ρ' : Env D} {skip : Bool} {r : Redirect} {x : D}

theorem eval_getArgOperand (args : List Val) (i : ℕ) :
    ι.eval ρ (getArgOperand args i) = (args.map (ι.eval ρ)).getD i ι.poison :=
  (List.getD_map args (.atom .poison) (ι.eval ρ)).symm

theorem eval_forward (args : List Val) (f : Forward) :
    ι.eval ρ (f.of args) = f.value ι (args.map (ι.eval ρ)) := by
  cases f with
  | arg i => exact eval_getArgOperand args i
  | cast bits i =>
    show ι.app (ι.app (ι.op "zextOrTrunc") (ι.int 64 bits)) (ι.eval ρ (getArgOperand args i)) = _
    rw [eval_getArgOperand]
    rfl

theorem eval_locArgs (loc : Option DebugLoc) :
    (locArgs loc).map (ι.eval ρ) = locValues ι loc := by
  cases loc <;> rfl

theorem eval_rebuild (args : List Val) (loc : Option DebugLoc) :
    (r.rebuild args loc).args.map (ι.eval ρ) = r.values ι (args.map (ι.eval ρ)) loc := by
  have hfront : (r.front.map (Forward.of args)).map (ι.eval ρ) =
      r.front.map (Forward.value ι (args.map (ι.eval ρ))) := by
    rw [List.map_map]
    exact List.map_congr_left fun f _ => eval_forward args f
  have hloc : (if r.hasLoc then locArgs loc else []).map (ι.eval ρ) =
      if r.hasLoc then locValues ι loc else [] := by
    cases r.hasLoc with
    | false => rfl
    | true => exact eval_locArgs loc
  have htail : (r.tailStart.elim [] args.drop).map (ι.eval ρ) =
      r.tailStart.elim [] (args.map (ι.eval ρ)).drop := by
    cases r.tailStart with
    | none => rfl
    | some t => exact List.map_drop
  unfold Redirect.rebuild Redirect.values
  rw [List.map_append, List.map_append, hfront, hloc, htail]

/-- The event of what stands in the place of an instruction. -/
theorem event_becomes (I : Inst) :
    (I.becomes skip).event ι ρ x = I.redirected ι skip (I.event ι ρ x) := by
  cases I with
  | call dst c loc =>
    cases hr : c.getCalledFunction.bind (callRedirect skip) with
    | none =>
      rw [(Inst.becomes_kept hr).1]
      simp only [Inst.event, Inst.redirected, hr]
    | some r =>
      rw [(Inst.becomes_rebuilt hr).1]
      simp only [Inst.event, Inst.redirected, hr, eval_rebuild]
      rfl
  | mem kind dest src len loc =>
    cases skip with
    | true => rfl
    | false =>
      show Event.call _ _ _ = Event.call _ _ _
      rw [eval_rebuild]
      rfl
  | _ => rfl

theorem next_becomes (I : Inst) : (I.becomes skip).next x ρ = I.next x ρ := by
  cases I with
  | call dst c loc =>
    cases hr : c.getCalledFunction.bind (callRedirect skip) with
    | none => rw [(Inst.becomes_kept hr).1]
    | some r =>
      rw [(Inst.becomes_rebuilt hr).1]
      rfl
  | mem kind dest src len loc => cases skip <;> rfl
  | _ => rfl

theorem shape_becomes (I : Inst) : (I.becomes true).shape = I.shape := by
  cases I with
  | call dst c loc =>
    cases hr : c.getCalledFunction.bind (callRedirect true) with
    | none => rw [(Inst.becomes_kept hr).1]
    | some r =>
      rw [(Inst.becomes_rebuilt hr).1]
      rfl
  | _ => rfl

end Values

/-! ## Operands without padded allocas -/

section Plain

variable {D : Type} {ι : Interp D} {ρ ρ' : Env D} {I : Inst} {x : D} {v : Val} {s : Atom → Val}
  {r : String → String}

theorem eval_plain (hv : v.Plain) (h : ρ.ssa = ρ'.ssa) : ι.eval ρ v = ι.eval ρ' v := by
  refine Term.eval_congr fun a ha => ?_
  cases a with
  | ssa y => exact congrFun h y
  | padded y => exact absurd (hv _ ha) Bool.noConfusion
  | _ => rfl

theorem map_eval_plain {vs : List Val} (hvs : ∀ v ∈ vs, v.Plain) (h : ρ.ssa = ρ'.ssa) :
    vs.map (ι.eval ρ) = vs.map (ι.eval ρ') :=
  List.map_congr_left fun v hv => eval_plain (hvs v hv) h

/-- What the pass has not made does not see where the padded allocas are. -/
theorem event_plain (hI : I.Plain) (h : ρ.ssa = ρ'.ssa) :
    I.event ι ρ x = I.event ι ρ' x := by
  cases I with
  | padded | check => exact absurd hI not_false
  | alloca => rfl
  | call dst c loc =>
    obtain ⟨hcallee, hargs⟩ := List.forall_mem_cons.mp hI
    simp only [Inst.event, eval_plain hcallee h, map_eval_plain hargs h]
  | other dst ops => exact congrArg (Event.other · _) (map_eval_plain hI h)
  | load | store | mem =>
    simp only [Inst.Plain, Inst.operands, List.forall_mem_cons] at hI
    simp only [Inst.event, hI, eval_plain _ h]

theorem next_plain (hI : I.Plain) (h : ρ.ssa = ρ'.ssa) :
    (I.next x ρ).ssa = (I.next x ρ').ssa ∧ (I.next x ρ).padded = ρ.padded := by
  have hdefine : ∀ dst : Option Value, (ρ.define dst x).ssa = (ρ'.define dst x).ssa ∧
      (ρ.define dst x).padded = ρ.padded := by
    intro dst
    cases dst with
    | none => exact ⟨h, rfl⟩
    | some v =>
      refine ⟨?_, rfl⟩
      show Function.update ρ.ssa v x = Function.update ρ'.ssa v x
      rw [h]
  cases I with
  | padded | check => exact absurd hI not_false
  | load dst => exact hdefine (some dst)
  | alloca a => exact hdefine (some a.id)
  | call dst | other dst => exact hdefine dst
  | store | mem => exact ⟨h, rfl⟩

end Plain

/-! ## What the code in the place of an instruction does -/

section Segments

variable {D : Type} {ι : Interp D} {t t' : Env D} {out : List (Event D)} {I J : Inst}
  {strip : Value → Stack.Base × ℤ} {insts : List Inst} {k : ℕ}

/-- One instruction in the place of one that defines the same. -/
theorem performs_one (hnext : ∀ x : D, J.next x t = I.next x t) :
    Performs (Inst.Fires ι) [J] t out t' ↔
      ∃ x, out = [J.event ι t x] ∧ t' = I.next x t := by
  rw [performs_singleton_iff]
  constructor
  · rintro ⟨e, rfl, x, rfl, rfl⟩
    exact ⟨x, rfl, hnext x⟩
  · rintro ⟨x, rfl, rfl⟩
    exact ⟨_, rfl, x, rfl, (hnext x).symm⟩

/-- A check defines nothing, and whatever comes back to it makes no difference. -/
theorem performs_check (ptr : Val) (size : TypeSize) (isWrite : Bool) (loc : Option DebugLoc) :
    Performs (Inst.Fires ι) [accessCheck ptr size isWrite loc, I] t out t' ↔
      ∃ x, out = [checkEvent ι (ι.eval t ptr) size isWrite loc, I.event ι t x] ∧
        t' = I.next x t := by
  have hcheck : ∀ y : D, (accessCheck ptr size isWrite loc).event ι t y =
      checkEvent ι (ι.eval t ptr) size isWrite loc := by
    intro y
    show Event.check _ = Event.check _
    rw [List.map_append, eval_locArgs]
    rfl
  rw [performs_cons_iff]
  constructor
  · rintro ⟨e, m, rest, rfl, ⟨y, rfl, rfl⟩, hrest⟩
    obtain ⟨x, rfl, rfl⟩ := (performs_one fun _ => rfl).mp hrest
    exact ⟨x, by rw [hcheck], rfl⟩
  · rintro ⟨x, rfl, rfl⟩
    refine ⟨_, t, [I.event ι t x], ?_, ⟨x, rfl, rfl⟩, (performs_one fun _ => rfl).mpr ⟨x, rfl, rfl⟩⟩
    rw [hcheck]

/-- An alloca that is wrapped: the padded one, the variable in it, and the hook. -/
theorem performs_wrapped (a : Stack.Alloca) (Sz : ℕ) :
    Performs (Inst.Fires ι) [.padded a.id (stackTotal Sz),
        .other (some a.id) [.atom (.padded a.id), constInt 64 kRedzone],
        stackHook "__redzone_stack_enter" a Sz] t out t' ↔
      ∃ x w, out = [.padded (stackTotal Sz) w, .other [w, ι.int 64 kRedzone] (some x),
          hookEvent ι "__redzone_stack_enter" w Sz] ∧
        t' = ((t.pad a.id w).set a.id x) := by
  have hw : ∀ w : D, ι.eval (t.pad a.id w) (.atom (.padded a.id)) = w := fun w =>
    Function.update_self ..
  have hw' : ∀ w x : D, ι.eval ((t.pad a.id w).set a.id x) (.atom (.padded a.id)) = w :=
    fun w x => Function.update_self ..
  rw [performs_cons_iff]
  constructor
  · rintro ⟨e, m, rest, rfl, ⟨w, rfl, rfl⟩, hrest⟩
    obtain ⟨e, m, rest, rfl, ⟨x, rfl, rfl⟩, hrest⟩ := performs_cons_iff.mp hrest
    obtain ⟨z, rfl, rfl⟩ := (performs_one fun _ => rfl).mp hrest
    refine ⟨x, w, ?_, rfl⟩
    simp only [Inst.event, stackHook, hookEvent, List.map_cons, List.map_nil, Inst.next,
      Env.define, hw, hw', Option.map_some, Option.map_none]
    rfl
  · rintro ⟨x, w, rfl, rfl⟩
    refine ⟨_, t.pad a.id w, _, rfl, ⟨w, rfl, rfl⟩, performs_cons_iff.mpr
      ⟨_, (t.pad a.id w).set a.id x, _, rfl, ⟨x, ?_, rfl⟩, ?_⟩⟩
    · simp only [Inst.event, List.map_cons, List.map_nil, hw, Option.map_some]
      rfl
    · refine (performs_one (I := stackHook "__redzone_stack_enter" a Sz) fun _ => rfl).mpr
        ⟨x, ?_, rfl⟩
      simp only [Inst.event, stackHook, hookEvent, List.map_cons, List.map_nil, hw',
        Option.map_none]
      rfl

/-- What the pass puts in the place of an instruction, in a function that it instruments or
skips. -/
def segment (skip : Bool) (strip : Value → Stack.Base × ℤ) (insts : List Inst) (k : ℕ)
    (I : Inst) : List Inst :=
  if skip then [I.becomes true] else instrumentInst strip insts k (I.becomes true)

/-- The state after a segment. -/
def Inst.after (skip : Bool) (x w : D) (t : Env D) (I : Inst) : Env D :=
  ⟨(I.next x t).ssa, I.pads skip w t.padded⟩

theorem after_unpadded {skip : Bool} (hI : I.Plain) (x w : D)
    (hpads : I.pads skip w t.padded = t.padded) : I.after skip x w t = I.next x t := by
  unfold Inst.after
  rw [hpads, ← (next_plain hI (rfl : t.ssa = t.ssa)).2]

/-- One instruction in the place of another one. -/
theorem performs_single {skip guarded : Bool} (hI : I.Plain)
    (hunfolds : ∀ w x : D,
      I.unfolds ι skip guarded w (I.event ι t x) = [(I.becomes skip).event ι t x])
    (hpads : ∀ w : D, I.pads skip w t.padded = t.padded) :
    Performs (Inst.Fires ι) [I.becomes skip] t out t' ↔
      ∃ x w, out = I.unfolds ι skip guarded w (I.event ι t x) ∧ t' = I.after skip x w t := by
  rw [performs_one fun x => next_becomes I]
  constructor
  · rintro ⟨x, rfl, rfl⟩
    exact ⟨x, x, (hunfolds x x).symm, (after_unpadded hI x x (hpads x)).symm⟩
  · rintro ⟨x, w, rfl, rfl⟩
    exact ⟨x, hunfolds w x, after_unpadded hI x w (hpads w)⟩

/-- An access, with a check in front of it or not. -/
theorem performs_access {ptr : Val} {size : TypeSize} {isWrite guarded : Bool}
    {loc : Option DebugLoc} (hI : I.Plain)
    (hunfolds : ∀ w x : D, I.unfolds ι false guarded w (I.event ι t x) =
      if guarded then [checkEvent ι (ι.eval t ptr) size isWrite loc, I.event ι t x]
      else [I.event ι t x])
    (hpads : ∀ w : D, I.pads false w t.padded = t.padded) :
    Performs (Inst.Fires ι) (if guarded then [accessCheck ptr size isWrite loc, I] else [I]) t
        out t' ↔
      ∃ x w, out = I.unfolds ι false guarded w (I.event ι t x) ∧ t' = I.after false x w t := by
  have hrun : Performs (Inst.Fires ι)
        (if guarded then [accessCheck ptr size isWrite loc, I] else [I]) t out t' ↔
      ∃ x, out = I.unfolds ι false guarded x (I.event ι t x) ∧ t' = I.next x t := by
    simp only [hunfolds]
    cases guarded with
    | true => exact performs_check ptr size isWrite loc
    | false => exact performs_one fun _ => rfl
  rw [hrun]
  constructor
  · rintro ⟨x, rfl, rfl⟩
    exact ⟨x, x, rfl, (after_unpadded hI x x (hpads x)).symm⟩
  · rintro ⟨x, w, rfl, rfl⟩
    exact ⟨x, (hunfolds w x).trans (hunfolds x x).symm, after_unpadded hI x w (hpads w)⟩

/-- The code in the place of an instruction does what is said of its event, and nothing
else. -/
theorem performs_segment {skip : Bool} (hI : I.Plain) :
    Performs (Inst.Fires ι) (segment skip strip insts k I) t out t' ↔
      ∃ x w, out = I.unfolds ι skip (guards skip strip insts k) w (I.event ι t x) ∧
        t' = I.after skip x w t := by
  cases skip with
  | true =>
    refine performs_single hI (fun w x => ?_) fun w => by cases I <;> rfl
    rw [event_becomes]
    cases I <;> rfl
  | false =>
    cases I with
    | padded | check => exact absurd hI not_false
    | call dst c loc =>
      show Performs _ (instrumentInst strip insts k _) t out t' ↔ _
      rw [instrumentInst_call]
      refine performs_single hI (fun w x => ?_) fun _ => rfl
      rw [event_becomes]
      rfl
    | mem kind dest src len loc =>
      show Performs _ [(Inst.mem kind dest src len loc).becomes false] t out t' ↔ _
      refine performs_single hI (fun w x => ?_) fun _ => rfl
      rw [event_becomes]
      rfl
    | other dst ops =>
      show Performs _ [(Inst.other dst ops).becomes false] t out t' ↔ _
      exact performs_single hI (fun _ _ => rfl) fun _ => rfl
    | load dst ptr size loc =>
      have hseg : segment false strip insts k (.load dst ptr size loc) =
          if guards false strip insts k then
            [accessCheck ptr size false loc, .load dst ptr size loc]
          else [.load dst ptr size loc] := by
        show (if Stack.skipped strip (insts.map Inst.shape) k then _ else _) = _
        unfold guards
        cases Stack.skipped strip (insts.map Inst.shape) k <;> rfl
      rw [hseg]
      exact performs_access hI (fun _ _ => rfl) fun _ => rfl
    | store value ptr size loc =>
      have hseg : segment false strip insts k (.store value ptr size loc) =
          if guards false strip insts k then
            [accessCheck ptr size true loc, .store value ptr size loc]
          else [.store value ptr size loc] := by
        show (if Stack.skipped strip (insts.map Inst.shape) k then _ else _) = _
        unfold guards
        cases Stack.skipped strip (insts.map Inst.shape) k <;> rfl
      rw [hseg]
      exact performs_access hI (fun _ _ => rfl) fun _ => rfl
    | alloca a =>
      cases hwrapped : a.wrapped with
      | none =>
        have hseg : segment false strip insts k (.alloca a) = [(Inst.alloca a).becomes false] := by
          simp only [segment, Inst.becomes, instrumentInst, hwrapped, Bool.false_eq_true, if_false]
        rw [hseg]
        refine performs_single hI (fun w x => ?_) fun w => ?_
        · simp only [Inst.unfolds, Inst.event, hwrapped, Bool.false_eq_true, if_false, Inst.becomes]
        · simp only [Inst.pads, hwrapped, Bool.false_eq_true, if_false, Option.elim_none]
      | some Sz =>
        have hseg : segment false strip insts k (.alloca a) =
            [.padded a.id (stackTotal Sz),
             .other (some a.id) [.atom (.padded a.id), constInt 64 kRedzone],
             stackHook "__redzone_stack_enter" a Sz] := by
          simp only [segment, Inst.becomes, instrumentInst, hwrapped, Bool.false_eq_true, if_false]
        rw [hseg, performs_wrapped]
        simp only [Inst.unfolds, Inst.event, Inst.after, Inst.pads, hwrapped, Bool.false_eq_true,
          if_false, Option.elim_some]
        rfl

end Segments

/-! ## Blocks -/

section Blocks

variable {D : Type} {ι : Interp D} {s t t' : Env D} {out : List (Event D)} {π : Value → D}
  {cfg : Config} {F : Func} {B : Block}

/-- The states of a function before and after the pass agree, the padded allocas apart. -/
def SameSsa (s : Env D) (π : Value → D) (t : Env D) : Prop := t.ssa = s.ssa ∧ t.padded = π

/-- Each instruction that the pass has not made expands to its segment. -/
theorem expands_segment (skip : Bool) (strip : Value → Stack.Base × ℤ) (insts : List Inst) :
    Expands Inst.Plain (Inst.Fires ι) (Inst.Fires ι) (segment skip strip insts)
      (Inst.Tells ι skip (guards skip strip insts)) SameSsa where
  sound := by
    rintro k I s π t out t' hI ⟨hssa, rfl⟩ hrun
    obtain ⟨x, w, rfl, rfl⟩ := (performs_segment hI).mp hrun
    refine ⟨I.event ι s x, I.next x s, _, ⟨x, rfl, rfl⟩, ⟨w, ?_, rfl⟩, (next_plain hI hssa).1, rfl⟩
    rw [event_plain hI hssa]
  complete := by
    rintro k I s π t e s' out π' hI ⟨hssa, rfl⟩ ⟨x, rfl, rfl⟩ ⟨w, rfl, rfl⟩
    refine ⟨I.after skip x w t, (performs_segment hI).mpr ⟨x, w, ?_, rfl⟩,
      (next_plain hI hssa).1, rfl⟩
    rw [event_plain hI hssa]

/-- The hooks before a `ret`. -/
theorem performs_leaves (vars : List (Stack.Alloca × ℕ)) :
    Performs (Inst.Fires ι)
        (vars.map fun p => stackHook "__redzone_stack_leave" p.1 p.2) t out t' ↔
      out = vars.map (fun p => hookEvent ι "__redzone_stack_leave" (t.padded p.1.id) p.2) ∧
        t' = t := by
  induction vars generalizing out with
  | nil => exact performs_nil_iff
  | cons p vars ih =>
    rw [List.map_cons, List.map_cons, performs_cons_iff]
    constructor
    · rintro ⟨e, m, rest, rfl, ⟨x, rfl, rfl⟩, hrest⟩
      obtain ⟨rfl, rfl⟩ := ih.mp hrest
      exact ⟨rfl, rfl⟩
    · rintro ⟨rfl, rfl⟩
      exact ⟨_, t', _, rfl, ⟨ι.poison, rfl, rfl⟩, ih.mpr ⟨rfl, rfl⟩⟩

/-- A terminator, with the hooks before it. -/
theorem leaves_tail (vars : List (Stack.Alloca × ℕ)) (T : Terminator) (x : D) :
    Performs (Inst.Fires ι) (leaves vars T) t out t' ↔
      out = leftBy ι vars t.padded (T.event ι t x) ∧ t' = t := by
  cases T with
  | ret ops => exact performs_leaves vars
  | invoke | other => exact performs_nil_iff

theorem term_event_plain {T : Terminator} {x : D} (hT : ∀ v ∈ T.operands, v.Plain)
    (h : t.ssa = s.ssa) : T.event ι t x = T.event ι s x := by
  cases T with
  | ret ops => exact congrArg Event.ret (map_eval_plain hT h)
  | other ops => exact congrArg Event.branch (map_eval_plain hT h)
  | invoke dst c =>
    obtain ⟨hcallee, hargs⟩ := List.forall_mem_cons.mp hT
    simp only [Terminator.event, eval_plain hcallee h, map_eval_plain hargs h]

theorem term_next_plain (T : Terminator) (x : D) (h : SameSsa s π t) :
    SameSsa (T.next x s) π (T.next x t) := by
  obtain ⟨hssa, rfl⟩ := h
  cases T with
  | ret | other => exact ⟨hssa, rfl⟩
  | invoke dst c =>
    cases dst with
    | none => exact ⟨hssa, rfl⟩
    | some v =>
      refine ⟨?_, rfl⟩
      show Function.update t.ssa v x = Function.update s.ssa v x
      rw [hssa]

/-- A block after the pass. -/
def blockAfter (cfg : Config) (F : Func) (B : Block) : Block :=
  ⟨(B.insts.mapIdx (segment (cfg.skipInstr F) (cfg.strip F.name) B.insts)).flatten ++
    leaves (cfg.vars F) B.term, B.term⟩

theorem instrumentInst_congr {strip : Value → Stack.Base × ℤ} {insts insts' : List Inst} {k : ℕ}
    (h : insts.map Inst.shape = insts'.map Inst.shape) :
    instrumentInst strip insts k = instrumentInst strip insts' k := by
  funext I
  cases I <;> simp only [instrumentInst, h]

theorem stackVars_redirectFunction (F : Func) : (redirectFunction F).stackVars = F.stackVars := by
  unfold Func.stackVars redirectFunction
  rw [List.flatMap_map]
  refine List.flatMap_congr fun B _ => ?_
  rw [List.filterMap_map]
  refine List.filterMap_congr fun I _ => ?_
  cases I with
  | call dst c loc =>
    rw [Function.comp_apply, redirectAlloc_eq]
    cases hr : c.getCalledFunction.bind (callRedirect true) with
    | none => rw [(Inst.becomes_kept hr).1]
    | some r => rw [(Inst.becomes_rebuilt hr).1]
  | _ => rfl

theorem mapIdx_of_map {α β γ : Type} (f : ℕ → β → γ) (g : α → β) (l : List α) :
    (l.map g).mapIdx f = l.mapIdx fun k a => f k (g a) := by
  induction l generalizing f with
  | nil => rfl
  | cons a l ih => rw [List.map_cons, List.mapIdx_cons, List.mapIdx_cons, ih]

/-- The blocks of a function outside the runtime after the phase over the functions. -/
theorem blocks_instrumentFunction (cfg : Config) (hF : isRuntimeName F.name = false) :
    (instrumentFunction cfg F).blocks = F.blocks.map (blockAfter cfg F) := by
  unfold instrumentFunction
  split
  · rename_i hdecl
    rw [List.isEmpty_iff.mp hdecl]
    rfl
  rw [if_neg (by rw [hF]; decide)]
  split
  · rename_i hskip
    refine List.map_congr_left fun B _ => ?_
    have hvars : leaves (cfg.vars F) B.term = [] := by
      unfold Config.vars
      rw [if_pos hskip]
      cases B.term <;> rfl
    have hsegs : segment (cfg.skipInstr F) (cfg.strip F.name) B.insts =
        fun _ I => [redirectAlloc I] := by
      funext k I
      unfold segment
      rw [if_pos hskip, redirectAlloc_eq]
    unfold blockAfter
    rw [hvars, List.append_nil, hsegs]
    refine congrArg (Block.mk · B.term) ?_
    induction B.insts with
    | nil => rfl
    | cons I insts ih => rw [List.map_cons, ih, List.mapIdx_cons, List.flatten_cons]; rfl
  · rename_i hskip
    show (F.blocks.map _).map _ = _
    rw [List.map_map, stackVars_redirectFunction]
    refine List.map_congr_left fun B _ => ?_
    have hvars : cfg.vars F = F.stackVars := if_neg hskip
    have hshapes : (B.insts.map redirectAlloc).map Inst.shape = B.insts.map Inst.shape := by
      rw [List.map_map]
      refine List.map_congr_left fun I _ => ?_
      rw [Function.comp_apply, redirectAlloc_eq, shape_becomes]
    have hsegs : segment (cfg.skipInstr F) (cfg.strip F.name) B.insts =
        fun k I => instrumentInst (cfg.strip F.name) (B.insts.map redirectAlloc) k
          (redirectAlloc I) := by
      funext k I
      unfold segment
      rw [if_neg hskip, redirectAlloc_eq, instrumentInst_congr hshapes]
    unfold blockAfter instrumentBlock
    rw [hvars, hsegs]
    refine congrArg (fun insts => Block.mk (List.flatten insts ++ _) B.term) ?_
    exact mapIdx_of_map _ _ B.insts

/-- A visit to a block after the pass. -/
theorem revisits (cfg : Config) (hF : isRuntimeName F.name = false) (hplain : F.Plain)
    (succ : ℕ → Event D → ℕ → Prop) :
    Revisits (F.Visits ι) ((instrumentFunction cfg F).Visits ι)
      (fun v => succ v.block v.last) (fun w => succ w.block w.last) (cfg.Tells ι F) SameSsa where
  sound := by
    rintro b s π t w t' hR ⟨B', hB', hb, m, hperf, x, hlast, rfl⟩
    rw [blocks_instrumentFunction cfg hF, List.getElem?_map] at hB'
    obtain ⟨B, hB, rfl⟩ := Option.map_eq_some_iff.mp hB'
    obtain ⟨hinsts, hterm⟩ := hplain B (List.mem_of_getElem? hB)
    obtain ⟨out, n, rest, hw, hrun, htail⟩ := performs_append_iff.mp hperf
    obtain ⟨rfl, rfl⟩ := (leaves_tail _ _ x).mp htail
    have hseg := expands_segment (ι := ι) (cfg.skipInstr F) (cfg.strip F.name) B.insts
    have hfrom : (B.insts.mapIdx (segment (cfg.skipInstr F) (cfg.strip F.name) B.insts)) =
        B.insts.mapIdx fun i => segment (cfg.skipInstr F) (cfg.strip F.name) B.insts (0 + i) := by
      simp only [Nat.zero_add]
    rw [hfrom] at hrun
    obtain ⟨es, s', π', hsrc, hexp, hR'⟩ := hseg.list_sound hinsts hR hrun
    have hevent : B.term.event ι m x = B.term.event ι s' x := term_event_plain hterm hR'.1
    refine ⟨⟨b, es, B.term.event ι s' x⟩, B.term.next x s', π',
      ⟨B, hB, rfl, s', hsrc, x, rfl, rfl⟩, ⟨B, hB, hb, hlast.trans hevent, out, hexp, ?_⟩,
      term_next_plain _ x hR'⟩
    rw [hw, hevent, hR'.2]
  complete := by
    rintro b s π t v s' w π' hR ⟨B, hB, rfl, m, hperf, x, hlast, rfl⟩
      ⟨B', hB', hb, hwlast, out, hexp, hw⟩
    obtain rfl : B = B' := Option.some.inj (hB.symm.trans hB')
    obtain ⟨hinsts, hterm⟩ := hplain B (List.mem_of_getElem? hB)
    have hseg := expands_segment (ι := ι) (cfg.skipInstr F) (cfg.strip F.name) B.insts
    obtain ⟨n, hrun, hR'⟩ := hseg.list_complete hinsts hR hperf hexp
    simp only [Nat.zero_add] at hrun
    have hevent : B.term.event ι n x = B.term.event ι m x := term_event_plain hterm hR'.1
    refine ⟨B.term.next x n, ⟨blockAfter cfg F B, ?_, hb, n, ?_, x, ?_, rfl⟩,
      term_next_plain _ x hR'⟩
    · rw [blocks_instrumentFunction cfg hF, List.getElem?_map, hB]
      rfl
    · rw [hw]
      refine performs_append_iff.mpr ⟨out, n, _, rfl, hrun, (leaves_tail _ _ x).mpr ⟨?_, rfl⟩⟩
      rw [hR'.2, hlast, hevent]
    · rw [hwlast, hlast, ← hevent]
      rfl
  next := by
    rintro π v w π' b ⟨B, hB, hb, hlast, hrest⟩
    rw [hb, hlast]

end Blocks

/-! ## The run -/

section Run

variable {D : Type} {M : Module} {F : Func} {cfg : Config} {i : ℕ}

theorem fixed_dataPtr {name : String} {isExternal : Bool} {a : Atom}
    (h : a ∈ (dataPtr name isExternal).atoms) : a.Fixed := by
  simp only [dataPtr, constInt, Term.atoms_app, Term.atoms_atom, List.mem_append,
    List.mem_singleton] at h
  obtain (rfl | rfl) | rfl := h
  · trivial
  · trivial
  · trivial

/-- The address of the data of a global is the same wherever it is computed. -/
theorem closed_globalSub (ts : List (String × Bool × ℕ)) : Closed (globalSub ts) := by
  have hfixed : ∀ v : Val, (∀ a ∈ v.atoms, a.Fixed) → ∀ a ∈ (v.bind (globalSub ts)).atoms,
      a.Fixed := by
    induction ts with
    | nil =>
      intro v hv
      have hid : v.bind (globalSub []) = v := Term.bind_eq_self fun _ _ => rfl
      rw [hid]
      exact hv
    | cons p ts ih =>
      intro v hv
      rw [bind_globalSub_cons]
      refine ih _ fun a ha => ?_
      obtain ⟨a', ha', hmem⟩ := Term.mem_atoms_bind.mp ha
      split at hmem
      · exact fixed_dataPtr hmem
      · rw [List.mem_singleton.mp hmem]
        exact hv a' ha'
  exact fun g => hfixed (.atom (.var g)) fun a ha => by
    rw [List.mem_singleton.mp ha]
    trivial

theorem closed_renameSub (r : String → String) : Closed (renameSub r) := by
  intro g a ha
  rw [List.mem_singleton.mp ha]
  trivial

/-- A replacement of symbols brings in no padded alloca. -/
theorem plain_bind {r : String → String} {s : Atom → Val} {v : Val} (h : Relabels r s)
    (hs : Closed s) (hv : v.Plain) : Val.Plain (v.bind s) := by
  intro x hx
  obtain ⟨a, ha, hmem⟩ := Term.mem_atoms_bind.mp hx
  cases a with
  | func N =>
    rw [h.func] at hmem
    rw [List.mem_singleton.mp hmem]
    rfl
  | var g =>
    have hfixed := hs g x hmem
    cases x with
    | padded => exact absurd hfixed not_false
    | _ => rfl
  | _ =>
    rw [h.other _ (fun _ => by simp) fun _ => by simp] at hmem
    rw [List.mem_singleton.mp hmem]
    exact hv _ ha

theorem plain_mapVals {r : String → String} {s : Atom → Val} (h : Relabels r s) (hs : Closed s)
    (hF : F.Plain) : (F.mapVals (Term.bind s)).Plain := by
  have hmap : ∀ vs : List Val, (∀ v ∈ vs, v.Plain) →
      ∀ v ∈ vs.map (Term.bind s), Val.Plain v :=
    fun vs hvs => List.forall_mem_map.mpr fun v hv => plain_bind h hs (hvs v hv)
  refine List.forall_mem_map.mpr fun B hB => ⟨List.forall_mem_map.mpr fun I hI => ?_, ?_⟩
  · have hplain := (hF B hB).1 I hI
    have hops : I.operands.map (Term.bind s) = (I.mapVals (Term.bind s)).operands :=
      I.operands_mapVals.symm
    cases I with
    | padded | check => exact absurd hplain not_false
    | _ =>
      show ∀ v ∈ (Inst.mapVals (Term.bind s) _).operands, Val.Plain v
      rw [← hops]
      exact hmap _ hplain
  · rw [Block.mapVals, Terminator.operands_mapVals]
    exact hmap _ (hF B hB).2

/-- The interpretation before both replacements. -/
theorem before_eq (M : Module) (ι : Interp D) :
    M.before ι =
      (ι.pull (renameSub (renamed kAllocPtr M))).pull (globalSub M.targets) :=
  (pull_pull (relabels_rename _) (closed_renameSub _) (globalSub M.targets)).symm

/-- What becomes of an event does not depend on the globals. -/
theorem rewrites_pull {s : Atom → Val} (h : Relabels id s) (cfg : Config) (ι : Interp D) :
    cfg.Rewrites (ι.pull s) = cfg.Rewrites ι := by
  have hpull : ι.pull s = { ι with var := fun g => ι.closed (s (.var g)) } := by
    unfold Interp.pull
    have hfunc : (fun N => ι.closed (s (.func N))) = ι.func := funext fun N => by
      rw [h.func]
      rfl
    rw [hfunc]
  rw [hpull]
  rfl

/-- What a function does after a run of the pass: what it has done before, with each event as
the pass says. -/
theorem behaves_run_iff (cfg : Config) (M : Module) (hi : M.functions[i]? = some F)
    (hplain : F.Plain) : ∃ F', (run cfg M).functions[i]? = some F' ∧ F'.name = F.name ∧
      ∀ (D : Type) (ι : Interp D) (succ : ℕ → Event D → ℕ → Prop) (b : ℕ) (ρ : Env D)
        (T' : List (Visit D)), F'.Behaves ι succ b ρ T' ↔
          ∃ T, F.Behaves (M.before ι) succ b ρ T ∧
            cfg.Rewrites (M.before ι) (M.globalsWrapped F) ρ.padded T T' := by
  refine ⟨M.finished cfg F, getElem?_run hi, (grows_run cfg M).name F, ?_⟩
  intro D ι succ b ρ T'
  have hglobals := relabels_globalSub M.targets
  have hrename := relabels_rename (renamed kAllocPtr M)
  have hclosed := closed_globalSub M.targets
  -- the two replacements are moved into the interpretation
  have hbefore : F.Behaves (M.before ι) succ =
      (M.globalsWrapped F).Behaves (ι.pull (renameSub (renamed kAllocPtr M))) succ := by
    rw [before_eq]
    exact (behaves_mapVals hglobals hclosed F succ).symm
  have hafter : (M.finished cfg F).Behaves ι succ =
      (instrumentFunction cfg (M.globalsWrapped F)).Behaves
        (ι.pull (renameSub (renamed kAllocPtr M))) succ :=
    behaves_mapVals hrename (closed_renameSub _) _ succ
  rw [hafter, hbefore, before_eq, rewrites_pull hglobals]
  unfold Config.Rewrites
  split
  · rename_i hruntime
    rw [instrumentFunction_runtime cfg hruntime]
    constructor
    · exact fun h => ⟨T', h, rfl⟩
    · rintro ⟨T, h, rfl⟩
      exact h
  · rename_i hruntime
    exact (revisits cfg (Bool.not_eq_true _ ▸ hruntime) (plain_mapVals hglobals hclosed hplain)
      succ).walk_iff ⟨rfl, rfl⟩

/-- A function with a variable that it stores its parameter in. -/
def frameModule : Module :=
  ⟨[⟨"f", false, [⟨[.alloca ⟨1, true, some (.fixed 8), 8⟩,
      .store (.atom (.ssa 9)) (.atom (.ssa 1)) (.fixed 8) none], .ret []⟩]⟩], [], []⟩

/-- Numbers as values, names by their lengths. -/
def lengthInterp : Interp ℕ :=
  ⟨String.length, String.length, String.length, fun _ n => n, 0, 0, String.length,
    fun f x => f + x⟩

/-- What `f` does after a run, called with 7. -/
theorem behaves_run_frameModule : ∃ F', (run plainConfig frameModule).functions[0]? = some F' ∧
    F'.Behaves lengthInterp (fun _ _ _ => False) 0 ⟨fun _ => 7, fun _ => 0⟩
      [⟨0, [.padded 40 480, .other [480, 16] (some 496), .call 21 [480, 8] none,
        .check [496, 8, 1, 0, 0], .store 7 496 (.fixed 8), .call 21 [480, 8] none], .ret []⟩] := by
  obtain ⟨F', hF', -, hiff⟩ := behaves_run_iff plainConfig frameModule
    (i := 0) (F := frameModule.functions.head (by decide)) rfl (by decide)
  refine ⟨F', hF', (hiff ℕ lengthInterp _ 0 _ _).mpr
    ⟨[⟨0, [.alloca ⟨1, true, some (.fixed 8), 8⟩ 496, .store 7 496 (.fixed 8)], .ret []⟩],
      ?_, ?_⟩⟩
  · exact .last ⟨_, rfl, rfl, _, .cons ⟨496, rfl, rfl⟩ (.cons ⟨0, rfl, rfl⟩ (.nil _)), 0, rfl, rfl⟩
  · unfold Config.Rewrites
    rw [if_neg (by decide)]
    exact .cons ⟨_, rfl, rfl, rfl, _, .cons ⟨480, rfl, rfl⟩ (.cons ⟨0, rfl, rfl⟩ (.nil _ _)), rfl⟩
      (.nil _)

end Run

end Redzone.Pass.AddressMode
