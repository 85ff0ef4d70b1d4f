/-
  Pass/Modules.lean --- modules, as the address mode of the compiler pass rewrites them.

  Race mode reads pointers and called functions.  Address mode also replaces uses: of a
  global by a pointer into its wrapper, of an allocation function by its wrapper.  So an
  operand is kept with all the symbols in it, in an instruction, in a terminator, in the
  initializer of a global and in the list of constructors.

  What takes the place of an instruction keeps its value, so that replacing the uses of an
  instruction is not seen.  `mapVals` applies a function to every operand.
-/
import Redzone.Foundation.Terms
import Redzone.Pass.Layout

set_option autoImplicit false

namespace Redzone.Pass.AddressMode

open Redzone.Foundation
open Redzone.Pass (Value TypeSize DebugLoc startsWith)

/-! ## Operands -/

/-- What an operand is made of. -/
inductive Atom where
  /-- What an instruction or a parameter defines. -/
  | ssa (v : Value)
  /-- The padded alloca around the variable of an alloca. -/
  | padded (v : Value)
  | func (name : String)
  | var (name : String)
  /-- A global string. -/
  | str (s : String)
  | int (bits n : ℕ)
  | null
  | poison
  /-- An operator or a constructor of constants. -/
  | op (name : String)
  deriving DecidableEq, Repr

/-- An operand. -/
abbrev Val : Type := Term Atom

/-- The function an atom is the address of. -/
def Atom.func? : Atom → Option String
  | .func name => some name
  | _ => none

/-- The functions an operand names. -/
def Val.funcs (v : Val) : List String := v.atoms.filterMap Atom.func?

/-- The function an operand is the address of. -/
def Val.func? : Val → Option String
  | .atom a => a.func?
  | .app _ _ => none

/-- The address of a function. -/
def funcAddr (name : String) : Val := .atom (.func name)

/-- `ConstantInt::get`. -/
def constInt (bits n : ℕ) : Val := .atom (.int bits n)

/-- `CreateZExtOrTrunc`. -/
def zextOrTrunc (bits : ℕ) (v : Val) : Val :=
  .app (.app (.atom (.op "zextOrTrunc")) (constInt 64 bits)) v

/-- `replaceAllUsesWith`, in one operand. -/
def Val.replace (old : Atom) (new v : Val) : Val :=
  v.bind fun a => if a = old then new else .atom a

/-- A number for a name. -/
def nameNumber (s : String) : ℕ := Encodable.encode (s.toList.map Char.toNat)

/-- A number for an atom. -/
def Atom.number : Atom → ℕ
  | .ssa v => Nat.pair 0 v
  | .padded v => Nat.pair 1 v
  | .func name => Nat.pair 2 (nameNumber name)
  | .var name => Nat.pair 3 (nameNumber name)
  | .str s => Nat.pair 4 (nameNumber s)
  | .int bits n => Nat.pair 5 (Nat.pair bits n)
  | .null => Nat.pair 6 0
  | .poison => Nat.pair 7 0
  | .op name => Nat.pair 8 (nameNumber name)

/-- The identity of an operand, by which accesses through the same pointer are told. -/
def Val.number (v : Val) : Value := Term.number Atom.number v

theorem nameNumber_injective : Function.Injective nameNumber := by
  intro x y h
  have hchars := List.map_injective_iff.mpr (fun _ _ => Char.toNat_inj.mp)
    (Encodable.encode_injective h)
  exact String.toList_inj.mp hchars

theorem Atom.number_injective : Function.Injective Atom.number := by
  intro a b h
  cases a <;> cases b <;> simp_all [Atom.number, Nat.pair_eq_pair, nameNumber_injective.eq_iff]

/-- Operands with the same number are the same. -/
theorem Val.number_injective : Function.Injective Val.number :=
  Term.number_injective Atom.number_injective

/-! ## Instructions -/

/-- A call or invoke. -/
structure CallSite where
  callee : Val
  /-- The function type of the call is that of the function it names. -/
  typeMatches : Bool
  args : List Val
  deriving DecidableEq, Repr

/-- The function a call names, whatever its type. -/
def CallSite.directCallee (c : CallSite) : Option String := Val.func? c.callee

/-- `getCalledFunction`. -/
def CallSite.getCalledFunction (c : CallSite) : Option String :=
  if c.typeMatches then c.directCallee else none

/-- The operands of a call. -/
def CallSite.operands (c : CallSite) : List Val := c.callee :: c.args

def CallSite.mapVals (f : Val → Val) (c : CallSite) : CallSite :=
  ⟨f c.callee, c.typeMatches, c.args.map f⟩

/-- `getArgOperand`.  A call has the arguments of its function; where it has not, the
argument is poison. -/
def getArgOperand (args : List Val) (i : ℕ) : Val := args.getD i (.atom .poison)

/-- The memory intrinsics. -/
inductive MemKind where
  | memcpy
  | memmove
  | memset
  deriving DecidableEq, Repr

/-- An instruction that does not end a block. -/
inductive Inst where
  | load (dst : Value) (ptr : Val) (size : TypeSize) (loc : Option DebugLoc)
  | store (value ptr : Val) (size : TypeSize) (loc : Option DebugLoc)
  /-- `llvm.memcpy`, `llvm.memmove`, and `llvm.memset` with the byte as its source. -/
  | mem (kind : MemKind) (dest src len : Val) (loc : Option DebugLoc)
  /-- Any other `CallInst`. -/
  | call (dst : Option Value) (site : CallSite) (loc : Option DebugLoc)
  /-- An alloca of a constant number of elements; one of a variable number is `other`. -/
  | alloca (a : Stack.Alloca)
  | other (dst : Option Value) (ops : List Val)
  /-- The alloca that the pass puts in the place of one that it wraps. -/
  | padded (v : Value) (bytes : ℕ)
  /-- The inline test of two shadow bytes, and behind it the call for a poisoned one. -/
  | check (site : CallSite)
  deriving DecidableEq, Repr

/-- The instruction that ends a block. -/
inductive Terminator where
  | ret (ops : List Val)
  | invoke (dst : Option Value) (site : CallSite)
  | other (ops : List Val)
  deriving DecidableEq, Repr

def Inst.operands : Inst → List Val
  | .load _ ptr _ _ => [ptr]
  | .store value ptr _ _ => [value, ptr]
  | .mem _ dest src len _ => [dest, src, len]
  | .call _ site _ | .check site => site.operands
  | .alloca _ | .padded _ _ => []
  | .other _ ops => ops

def Inst.mapVals (f : Val → Val) : Inst → Inst
  | .load dst ptr size loc => .load dst (f ptr) size loc
  | .store value ptr size loc => .store (f value) (f ptr) size loc
  | .mem kind dest src len loc => .mem kind (f dest) (f src) (f len) loc
  | .call dst site loc => .call dst (site.mapVals f) loc
  | .alloca a => .alloca a
  | .other dst ops => .other dst (ops.map f)
  | .padded v bytes => .padded v bytes
  | .check site => .check (site.mapVals f)

def Terminator.operands : Terminator → List Val
  | .ret ops | .other ops => ops
  | .invoke _ site => site.operands

def Terminator.mapVals (f : Val → Val) : Terminator → Terminator
  | .ret ops => .ret (ops.map f)
  | .invoke dst site => .invoke dst (site.mapVals f)
  | .other ops => .other (ops.map f)

/-- The call that an instruction is. -/
def Inst.site : Inst → Option CallSite
  | .call _ site _ => some site
  | _ => none

def Terminator.site : Terminator → Option CallSite
  | .invoke _ site => some site
  | _ => none

/-- What the analysis of the accesses sees of an instruction. -/
def Inst.shape : Inst → Stack.Inst
  | .load dst ptr size _ => .load dst ptr.number size
  | .store _ ptr size _ => .store ptr.number size
  | .mem _ _ _ _ _ | .check _ => .call 0
  | .call dst _ _ => .call (dst.getD 0)
  | .alloca a => .alloca a
  | .other dst _ => .other (dst.getD 0)
  | .padded v _ => .other v

/-! ## Modules -/

/-- A basic block. -/
structure Block where
  insts : List Inst
  term : Terminator
  deriving DecidableEq, Repr

def Block.operands (B : Block) : List Val := B.insts.flatMap Inst.operands ++ B.term.operands

def Block.mapVals (f : Val → Val) (B : Block) : Block :=
  ⟨B.insts.map (Inst.mapVals f), B.term.mapVals f⟩

/-- A function; a declaration has no blocks. -/
structure Func where
  name : String
  /-- `disable_sanitizer_instrumentation` -/
  optsOut : Bool
  blocks : List Block
  deriving DecidableEq, Repr

/-- `isDeclaration`. -/
def Func.isDeclaration (F : Func) : Bool := F.blocks.isEmpty

def Func.operands (F : Func) : List Val := F.blocks.flatMap Block.operands

def Func.mapVals (f : Val → Val) (F : Func) : Func :=
  { F with blocks := F.blocks.map (Block.mapVals f) }

/-- The functions that a function names, as callees or otherwise. -/
def Func.uses (F : Func) : List String := F.operands.flatMap Val.funcs

/-- The linkages that the pass tells apart. -/
inductive Linkage where
  | local
  | external
  | other
  deriving DecidableEq, Repr

/-- `GlobalVariable`. -/
structure Global where
  name : String
  isConstant : Bool
  isThreadLocal : Bool
  hasSection : Bool
  hasComdat : Bool
  isExternallyInitialized : Bool
  linkage : Linkage
  /-- `getTypeAllocSize`, of a type that is sized. -/
  size : Option TypeSize
  align : Option ℕ
  /-- `getInitializer`; a declaration has none. -/
  init : Option Val
  deriving DecidableEq, Repr

def Global.mapVals (f : Val → Val) (G : Global) : Global := { G with init := G.init.map f }

/-- A module. -/
structure Module where
  functions : List Func
  globals : List Global
  /-- `llvm.global_ctors`: the priority and the function. -/
  ctors : List (ℕ × Val)
  deriving DecidableEq, Repr

def Module.operands (M : Module) : List Val :=
  M.functions.flatMap Func.operands ++ M.globals.filterMap Global.init ++ M.ctors.map Prod.snd

def Module.mapVals (f : Val → Val) (M : Module) : Module :=
  ⟨M.functions.map (Func.mapVals f), M.globals.map (Global.mapVals f),
    M.ctors.map (Prod.map id f)⟩

/-- `replaceAllUsesWith`. -/
def Module.replaceAllUsesWith (M : Module) (old : Atom) (new : Val) : Module :=
  M.mapVals (Val.replace old new)

/-- `getFunction`. -/
def Module.getFunction (M : Module) (name : String) : Option Func :=
  M.functions.find? fun F => F.name == name

/-- `use_empty`. -/
def Module.useEmpty (M : Module) (name : String) : Bool :=
  M.operands.all fun v => !v.funcs.contains name

/-- `getOrInsertFunction`: declare a function unless the module has one of that name. -/
def Module.getOrInsertFunction (M : Module) (name : String) : Module :=
  if (M.getFunction name).isSome then M
  else { M with functions := M.functions ++ [⟨name, false, []⟩] }

/-- `getOrInsertGlobal`, of a pointer. -/
def Module.getOrInsertGlobal (M : Module) (name : String) : Module :=
  if M.globals.any fun G => G.name == name then M
  else { M with globals := M.globals ++
    [⟨name, false, false, false, false, false, .external, some (.fixed 8), none, none⟩] }

/-- A symbol has the name. -/
def Module.taken (M : Module) (name : String) : Bool :=
  (M.functions.any fun F => F.name == name) || M.globals.any fun G => G.name == name

/-- The name a new symbol gets: the one asked for, or with a number that makes it new. -/
def Module.uniqueName (M : Module) (name : String) : String :=
  if M.taken name then
    let numbered (k : ℕ) : String := name ++ "." ++ toString (k + 1)
    let symbols := M.functions.length + M.globals.length
    numbered (((List.range symbols).find? fun k => !M.taken (numbered k)).getD symbols)
  else name

/-! ## Operands under a replacement -/

section Operands

variable {f g : Val → Val}

theorem CallSite.operands_mapVals (c : CallSite) :
    (c.mapVals f).operands = c.operands.map f := rfl

theorem Inst.operands_mapVals (I : Inst) : (I.mapVals f).operands = I.operands.map f := by
  cases I <;> rfl

theorem Terminator.operands_mapVals (t : Terminator) :
    (t.mapVals f).operands = t.operands.map f := by
  cases t <;> rfl

theorem Block.operands_mapVals (B : Block) : (B.mapVals f).operands = B.operands.map f := by
  unfold Block.operands Block.mapVals
  rw [Terminator.operands_mapVals, List.map_append, List.flatMap_map, List.map_flatMap]
  refine congrArg (· ++ _) (List.flatMap_congr fun I _ => I.operands_mapVals)

theorem Func.operands_mapVals (F : Func) : (F.mapVals f).operands = F.operands.map f := by
  unfold Func.operands Func.mapVals
  rw [List.flatMap_map, List.map_flatMap]
  exact List.flatMap_congr fun B _ => B.operands_mapVals

theorem CallSite.mapVals_comp (c : CallSite) : (c.mapVals f).mapVals g = c.mapVals (g ∘ f) := by
  unfold CallSite.mapVals
  rw [List.map_map]
  rfl

theorem Inst.mapVals_comp (I : Inst) : (I.mapVals f).mapVals g = I.mapVals (g ∘ f) := by
  cases I with
  | call | check => simp only [Inst.mapVals, CallSite.mapVals_comp]
  | other => simp only [Inst.mapVals, List.map_map]
  | _ => rfl

theorem Terminator.mapVals_comp (t : Terminator) :
    (t.mapVals f).mapVals g = t.mapVals (g ∘ f) := by
  cases t with
  | invoke => simp only [Terminator.mapVals, CallSite.mapVals_comp]
  | ret | other => simp only [Terminator.mapVals, List.map_map]

theorem Block.mapVals_comp (B : Block) : (B.mapVals f).mapVals g = B.mapVals (g ∘ f) := by
  unfold Block.mapVals
  rw [List.map_map, Terminator.mapVals_comp]
  exact congrArg (Block.mk · _) (List.map_congr_left fun I _ => I.mapVals_comp)

theorem Func.mapVals_comp (F : Func) : (F.mapVals f).mapVals g = F.mapVals (g ∘ f) := by
  unfold Func.mapVals
  rw [List.map_map]
  exact congrArg (Func.mk F.name F.optsOut) (List.map_congr_left fun B _ => B.mapVals_comp)

theorem CallSite.mapVals_eq_self {c : CallSite} (h : ∀ v ∈ c.operands, f v = v) :
    c.mapVals f = c := by
  unfold CallSite.mapVals
  rw [h c.callee List.mem_cons_self,
    (List.map_congr_left fun v hv => h v (List.mem_cons_of_mem _ hv)).trans (List.map_id _)]

theorem map_eq_self {vs : List Val} (h : ∀ v ∈ vs, f v = v) : vs.map f = vs :=
  (List.map_congr_left h).trans (List.map_id _)

theorem Inst.mapVals_eq_self {I : Inst} (h : ∀ v ∈ I.operands, f v = v) : I.mapVals f = I := by
  cases I with
  | call | check => rw [Inst.mapVals, CallSite.mapVals_eq_self h]
  | other dst ops => exact congrArg (Inst.other dst) (map_eq_self h)
  | alloca | padded => rfl
  | load | store | mem =>
    simp only [Inst.operands, List.forall_mem_cons] at h
    simp only [Inst.mapVals, h]

theorem Terminator.mapVals_eq_self {t : Terminator} (h : ∀ v ∈ t.operands, f v = v) :
    t.mapVals f = t := by
  cases t with
  | ret ops => exact congrArg Terminator.ret (map_eq_self h)
  | invoke => rw [Terminator.mapVals, CallSite.mapVals_eq_self h]
  | other ops => exact congrArg Terminator.other (map_eq_self h)

/-- A replacement that changes no operand changes nothing. -/
theorem Func.mapVals_eq_self {F : Func} (h : ∀ v ∈ F.operands, f v = v) : F.mapVals f = F := by
  have hblock : ∀ B ∈ F.blocks, B.mapVals f = B := by
    intro B hB
    have hmem : ∀ v ∈ B.operands, f v = v := fun v hv => h v (List.mem_flatMap.mpr ⟨B, hB, hv⟩)
    have hinst : B.insts.map (Inst.mapVals f) = B.insts :=
      (List.map_congr_left fun I hI => Inst.mapVals_eq_self fun v hv =>
        hmem v (List.mem_append_left _ (List.mem_flatMap.mpr ⟨I, hI, hv⟩))).trans (List.map_id _)
    unfold Block.mapVals
    rw [hinst, Terminator.mapVals_eq_self fun v hv => hmem v (List.mem_append_right _ hv)]
  unfold Func.mapVals
  rw [(List.map_congr_left hblock).trans (List.map_id _)]

end Operands

end Redzone.Pass.AddressMode
