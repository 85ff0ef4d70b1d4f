/-
  Pass/Behaviour.lean --- what a function does, as it is seen from outside.

  The pass reads of an instruction what it is and which operands it has; so much is given a
  meaning here.  An interpretation says what the symbols and the operators of constants
  stand for.  Running an instruction is an event: what it is, the values of its operands,
  and a result.  The result is up to the outside, memory and the functions that are called
  included; so is where a block goes, given its last event.

  A behaviour is what the visits to blocks do from entry to some end of a block.  A run
  that is cut short, by an exit or a report, is the front of one, since every instruction
  has a next event.
-/
import Redzone.Foundation.Expansion
import Redzone.Pass.AddressModeRun

set_option autoImplicit false

namespace Redzone.Pass.AddressMode

open Redzone.Foundation
open Redzone.Pass (Value TypeSize DebugLoc)

/-! ## Values -/

/-- What symbols, constants and operators stand for. -/
structure Interp (D : Type) where
  func : String → D
  var : String → D
  str : String → D
  int : ℕ → ℕ → D
  null : D
  poison : D
  op : String → D
  app : D → D → D

/-- What instructions and parameters have defined so far. -/
structure Env (D : Type) where
  ssa : Value → D
  padded : Value → D

section Values

variable {D : Type}

def Interp.atom (ι : Interp D) (ρ : Env D) : Atom → D
  | .ssa v => ρ.ssa v
  | .padded v => ρ.padded v
  | .func name => ι.func name
  | .var name => ι.var name
  | .str s => ι.str s
  | .int bits n => ι.int bits n
  | .null => ι.null
  | .poison => ι.poison
  | .op name => ι.op name

/-- The value of an operand. -/
def Interp.eval (ι : Interp D) (ρ : Env D) (v : Val) : D := Term.eval (ι.atom ρ) ι.app v

/-- The value of an operand without definitions. -/
def Interp.closed (ι : Interp D) (v : Val) : D :=
  ι.eval ⟨fun _ => ι.poison, fun _ => ι.poison⟩ v

/-- The interpretation before a replacement of symbols. -/
def Interp.pull (ι : Interp D) (s : Atom → Val) : Interp D :=
  { ι with
    func := fun name => ι.closed (s (.func name))
    var := fun name => ι.closed (s (.var name)) }

def Env.set (ρ : Env D) (v : Value) (r : D) : Env D :=
  { ρ with ssa := Function.update ρ.ssa v r }

def Env.pad (ρ : Env D) (v : Value) (r : D) : Env D :=
  { ρ with padded := Function.update ρ.padded v r }

/-- What an instruction with a result defines. -/
def Env.define (ρ : Env D) (dst : Option Value) (r : D) : Env D :=
  match dst with
  | some v => ρ.set v r
  | none => ρ

end Values

/-! ## Events -/

/-- An instruction that has run, with the values of its operands and its result. -/
inductive Event (D : Type) where
  | load (ptr : D) (size : TypeSize) (result : D)
  | store (value ptr : D) (size : TypeSize)
  | mem (kind : MemKind) (dest src len : D)
  | call (callee : D) (args : List D) (result : Option D)
  | alloca (a : Stack.Alloca) (result : D)
  | other (ops : List D) (result : Option D)
  | padded (bytes : ℕ) (result : D)
  | check (args : List D)
  | ret (ops : List D)
  | invoke (callee : D) (args : List D) (result : Option D)
  | branch (ops : List D)
  deriving DecidableEq, Repr

section Events

variable {D : Type}

/-- The event of an instruction, with the result that it gets. -/
def Inst.event (ι : Interp D) (ρ : Env D) (r : D) : Inst → Event D
  | .load _ ptr size _ => .load (ι.eval ρ ptr) size r
  | .store value ptr size _ => .store (ι.eval ρ value) (ι.eval ρ ptr) size
  | .mem kind dest src len _ => .mem kind (ι.eval ρ dest) (ι.eval ρ src) (ι.eval ρ len)
  | .call dst c _ => .call (ι.eval ρ c.callee) (c.args.map (ι.eval ρ)) (dst.map fun _ => r)
  | .alloca a => .alloca a r
  | .other dst ops => .other (ops.map (ι.eval ρ)) (dst.map fun _ => r)
  | .padded _ bytes => .padded bytes r
  | .check c => .check (c.args.map (ι.eval ρ))

/-- What is defined after an instruction. -/
def Inst.next (r : D) (ρ : Env D) : Inst → Env D
  | .load dst _ _ _ => ρ.set dst r
  | .call dst _ _ | .other dst _ => ρ.define dst r
  | .alloca a => ρ.set a.id r
  | .padded v _ => ρ.pad v r
  | .store .. | .mem .. | .check .. => ρ

/-- An instruction runs. -/
def Inst.Fires (ι : Interp D) (I : Inst) (ρ : Env D) (e : Event D) (ρ' : Env D) : Prop :=
  ∃ r, e = I.event ι ρ r ∧ ρ' = I.next r ρ

def Terminator.event (ι : Interp D) (ρ : Env D) (r : D) : Terminator → Event D
  | .ret ops => .ret (ops.map (ι.eval ρ))
  | .invoke dst c => .invoke (ι.eval ρ c.callee) (c.args.map (ι.eval ρ)) (dst.map fun _ => r)
  | .other ops => .branch (ops.map (ι.eval ρ))

def Terminator.next (r : D) (ρ : Env D) : Terminator → Env D
  | .invoke dst _ => ρ.define dst r
  | .ret _ | .other _ => ρ

def Terminator.Fires (ι : Interp D) (t : Terminator) (ρ : Env D) (e : Event D) (ρ' : Env D) :
    Prop :=
  ∃ r, e = t.event ι ρ r ∧ ρ' = t.next r ρ

/-- What a visit to a block does. -/
structure Visit (D : Type) where
  block : ℕ
  events : List (Event D)
  last : Event D
  deriving DecidableEq, Repr

/-- A visit to block `b` of a function. -/
def Func.Visits (ι : Interp D) (F : Func) (b : ℕ) (ρ : Env D) (v : Visit D) (ρ' : Env D) :
    Prop :=
  ∃ B, F.blocks[b]? = some B ∧ v.block = b ∧
    ∃ m, Performs (Inst.Fires ι) B.insts ρ v.events m ∧ B.term.Fires ι m v.last ρ'

/-- A behaviour of a function from block `b` on, where the outside goes from block to block
by `succ`. -/
def Func.Behaves (ι : Interp D) (succ : ℕ → Event D → ℕ → Prop) (F : Func) :
    ℕ → Env D → List (Visit D) → Prop :=
  Walk (F.Visits ι) fun v => succ v.block v.last

end Events

/-! ## Symbols that are replaced -/

/-- An atom whose value is no definition. -/
def Atom.Fixed : Atom → Prop
  | .ssa _ | .padded _ => False
  | _ => True

section Symbols

variable {D : Type} {ι : Interp D} {ρ ρ' : Env D} {s s' : Atom → Val} {r r' : String → String}
  {v : Val}

theorem eval_fixed (h : ∀ a ∈ v.atoms, a.Fixed) : ι.eval ρ v = ι.eval ρ' v := by
  refine Term.eval_congr fun a ha => ?_
  cases a with
  | ssa | padded => exact absurd (h _ ha) not_false
  | _ => rfl

/-- Replacements by what has a value without definitions. -/
def Closed (s : Atom → Val) : Prop := ∀ g, ∀ a ∈ (s (.var g)).atoms, a.Fixed

/-- The value of an operand after a replacement. -/
theorem eval_bind_pull (h : Relabels r s) (hs : Closed s) (v : Val) :
    ι.eval ρ (v.bind s) = (ι.pull s).eval ρ v := by
  unfold Interp.eval
  rw [Term.eval_bind]
  refine Term.eval_congr fun a _ => ?_
  cases a with
  | func N =>
    rw [h.func]
    show ι.func (r N) = ι.closed (s (.func N))
    rw [h.func]
    rfl
  | var g => exact eval_fixed (hs g)
  | _ =>
    rw [h.other _ (fun _ => by simp) fun _ => by simp]
    rfl

theorem map_eval_bind (h : Relabels r s) (hs : Closed s) (vs : List Val) :
    (vs.map (Term.bind s)).map (ι.eval ρ) = vs.map ((ι.pull s).eval ρ) := by
  rw [List.map_map]
  exact List.map_congr_left fun v _ => eval_bind_pull h hs v

/-- An instruction after a replacement makes the events that it has made before, of other
symbols. -/
theorem fires_mapVals (h : Relabels r s) (hs : Closed s) (I : Inst) :
    (I.mapVals (Term.bind s)).Fires ι = I.Fires (ι.pull s) := by
  have hevent : ∀ ρ (x : D), (I.mapVals (Term.bind s)).event ι ρ x = I.event (ι.pull s) ρ x := by
    intro ρ x
    cases I with
    | call | check =>
      simp only [Inst.mapVals, CallSite.mapVals, Inst.event, eval_bind_pull h hs,
        map_eval_bind h hs]
    | _ => simp only [Inst.mapVals, Inst.event, eval_bind_pull h hs, map_eval_bind h hs]
  have hnext : ∀ ρ (x : D), (I.mapVals (Term.bind s)).next x ρ = I.next x ρ := by
    intro ρ x
    cases I <;> rfl
  funext ρ e ρ'
  unfold Inst.Fires
  simp only [hevent, hnext]

theorem term_fires_mapVals (h : Relabels r s) (hs : Closed s) (t : Terminator) :
    (t.mapVals (Term.bind s)).Fires ι = t.Fires (ι.pull s) := by
  have hevent : ∀ ρ (x : D), (t.mapVals (Term.bind s)).event ι ρ x = t.event (ι.pull s) ρ x := by
    intro ρ x
    cases t with
    | invoke =>
      simp only [Terminator.mapVals, CallSite.mapVals, Terminator.event, eval_bind_pull h hs,
        map_eval_bind h hs]
    | ret | other => simp only [Terminator.mapVals, Terminator.event, map_eval_bind h hs]
  have hnext : ∀ ρ (x : D), (t.mapVals (Term.bind s)).next x ρ = t.next x ρ := by
    intro ρ x
    cases t <;> rfl
  funext ρ e ρ'
  unfold Terminator.Fires
  simp only [hevent, hnext]

/-- A function after a replacement behaves as before, of other symbols. -/
theorem behaves_mapVals (h : Relabels r s) (hs : Closed s) (F : Func)
    (succ : ℕ → Event D → ℕ → Prop) :
    (F.mapVals (Term.bind s)).Behaves ι succ = F.Behaves (ι.pull s) succ := by
  have hinsts : ∀ insts : List Inst,
      Performs (Inst.Fires ι) (insts.map (Inst.mapVals (Term.bind s))) =
        Performs (Inst.Fires (ι.pull s)) insts := fun insts =>
    performs_map_eq (fun I => fires_mapVals h hs I) insts
  have hvisits : (F.mapVals (Term.bind s)).Visits ι = F.Visits (ι.pull s) := by
    funext b ρ v ρ'
    unfold Func.Visits Func.mapVals
    simp only [List.getElem?_map, Option.map_eq_some_iff]
    refine propext ⟨?_, ?_⟩
    · rintro ⟨-, ⟨B, hB, rfl⟩, hb, m, hperf, hterm⟩
      refine ⟨B, hB, hb, m, ?_, ?_⟩
      · rw [← hinsts]
        exact hperf
      · rw [← term_fires_mapVals h hs]
        exact hterm
    · rintro ⟨B, hB, hb, m, hperf, hterm⟩
      refine ⟨_, ⟨B, hB, rfl⟩, hb, m, ?_, ?_⟩
      · show Performs _ (B.insts.map _) _ _ _
        rw [hinsts]
        exact hperf
      · show (B.term.mapVals _).Fires _ _ _ _
        rw [term_fires_mapVals h hs]
        exact hterm
  unfold Func.Behaves
  rw [hvisits]

/-- One replacement after the other. -/
theorem pull_pull (h' : Relabels r' s') (hs' : Closed s') (s : Atom → Val) :
    (ι.pull s').pull s = ι.pull fun a => (s a).bind s' := by
  have hfixed : ∀ v : Val, (ι.pull s').closed v = ι.closed (v.bind s') := fun v =>
    (eval_bind_pull h' hs' v).symm
  unfold Interp.pull
  simp only [Interp.mk.injEq, and_true]
  exact ⟨funext fun N => hfixed _, funext fun g => hfixed _⟩

end Symbols

end Redzone.Pass.AddressMode
