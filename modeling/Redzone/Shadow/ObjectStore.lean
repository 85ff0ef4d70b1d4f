/-
  Shadow/ObjectStore.lean --- what the runtime is for: a store of objects.

  The store knows which objects there are and what the program has put into memory.  It
  has no shadow, no headers, and no arithmetic that wraps: blocks are found by where they
  start or which addresses they enclose, a byte is off limits where an object guards it,
  and nothing but the program's own stores, copies and fills changes the data.

  The answers of the system (where memory is, whether the table can grow) and the places
  of stack variables and globals are part of the requests, as they are in
  `Shadow/World.lean`.  Loads and stores are those of an instrumented program: they are
  checked first.  `Store.Allowed` says what is owed besides: fresh extents, alignments in
  64 bits, a place for the pointer of `posix_memalign` that nothing guards, active variables
  where one is left, apart ranges of a `memcpy`, and no access of more than 16 bytes whose
  ends are fine and whose middle is off limits.
-/
import Redzone.Foundation.Transcript
import Redzone.Shadow.Realloc

set_option autoImplicit false

namespace Redzone.Shadow

open Redzone.Foundation

/-! ## Requests and replies -/

/-- What a program asks of the runtime, or does to memory itself. -/
inductive Request where
  | heap (c : HeapCall)
  /-- `__redzone_owns` -/
  | owns (ptr : ℕ)
  /-- `__redzone_usable_size` -/
  | usableSize (ptr : ℕ)
  | stackEnter (v : StackVar)
  | stackLeave (v : StackVar)
  | globalRegister (g : GlobalVar)
  | globalRegisterRight (g : GlobalVar)
  /-- `__redzone_check` -/
  | check (a size : ℕ) (isWrite : Bool) (file : Option String) (line : ℤ)
  /-- `__redzone_memcpy` -/
  | memcpy (dst src n : ℕ) (file : Option String) (line : ℤ)
  /-- `__redzone_memmove` -/
  | memmove (dst src n : ℕ) (file : Option String) (line : ℤ)
  /-- `__redzone_memset` -/
  | memset (dst : ℕ) (c : UInt8) (n : ℕ) (file : Option String) (line : ℤ)
  /-- The program loads `n` bytes. -/
  | load (a n : ℕ) (file : Option String) (line : ℤ)
  /-- The program stores bytes. -/
  | store (a : ℕ) (bytes : List UInt8) (file : Option String) (line : ℤ)
  deriving DecidableEq, Repr

/-- What the program gets. -/
inductive Reply where
  | done
  | pointer (p : Option ℕ)
  | code (rc : ℤ)
  | owned (yes : Bool)
  | size (n : ℕ)
  | bytes (vs : List UInt8)
  deriving DecidableEq, Repr

/-- The `n` bytes at `a`. -/
def readBytes (mem : Bytes) (a n : ℕ) : List UInt8 := (List.range n).map fun i => mem (a + i)

/-- Memory with the bytes at `a`. -/
def writeBytes (mem : Bytes) (a : ℕ) (bytes : List UInt8) : Bytes := fun x =>
  if a ≤ x ∧ x < a + bytes.length then bytes.getD (x - a) 0 else mem x

/-- What a call asks the allocator for: the size, the alignment, and what the system
answers. -/
def HeapCall.request : HeapCall → Option (ℕ × ℕ × Sys)
  | .malloc size _ _ sys => some (size, redzoneSize, sys)
  | .alignedAlloc alignment size _ _ sys => some (size, max alignment redzoneSize, sys)
  | .posixMemalign _ alignment size _ _ sys => some (size, max alignment redzoneSize, sys)
  | .calloc nmemb size _ _ sys => some (nmemb * size, redzoneSize, sys)
  | .realloc ptr size _ _ sys => if ptr ≠ 0 ∧ size = 0 then none else some (size, redzoneSize, sys)
  | .free _ => none

/-- The alignment that a call names. -/
def HeapCall.alignment : HeapCall → ℕ
  | .alignedAlloc alignment _ _ _ _ => alignment
  | .posixMemalign _ alignment _ _ _ _ => alignment
  | _ => redzoneSize

/-! ## The store -/

/-- The objects of the process, and the data. -/
structure Store where
  blocks : List Block
  stack : List StackVar
  internals : List GlobalVar
  externals : List GlobalVar
  data : Bytes

/-- What a chunk is a guard of. -/
inductive Zone where
  | heap
  | stack
  | global
  deriving DecidableEq, Repr

/-- The table of blocks doubles its room from 64 on, and is full when it is filled. -/
def TableFull (n : ℕ) : Prop := n = 0 ∨ n % 64 = 0 ∧ isPow2 (n / 64) = true

instance (n : ℕ) : Decidable (TableFull n) := inferInstanceAs (Decidable (_ ∨ _ ∧ _))

/-- None of the bytes of the chunk of `x` is a user byte of the object. -/
def Obj.Blank (o : Obj) (x : ℕ) : Prop :=
  o.region.Mem x ∧ ¬ (o.live = true ∧ o.userLo ≤ x / 8 * 8 ∧ x / 8 * 8 < o.userHi)

instance (o : Obj) (x : ℕ) : Decidable (o.Blank x) := inferInstanceAs (Decidable (_ ∧ ¬ (_ ∧ _)))

namespace Store

def initial : Store := ⟨[], [], [], [], fun _ => 0⟩

/-- The objects with what their guards are. -/
def zones (t : Store) : List (Obj × Zone) :=
  t.blocks.map (fun b => (b.obj, .heap)) ++
    (t.stack.map (fun v => (v.obj, .stack)) ++
      (t.internals.map (fun g => (g.internalObj, .global)) ++
        t.externals.map fun g => (g.externalObj, .global)))

def objs (t : Store) : List Obj := t.zones.map Prod.fst

/-- An object guards the byte. -/
def OffLimits (t : Store) (x : ℕ) : Prop := ∃ o ∈ t.objs, o.region.Guards x

instance (t : Store) (x : ℕ) : Decidable (t.OffLimits x) :=
  inferInstanceAs (Decidable (∃ o ∈ t.objs, _))

/-- An extent that the system may hand out. -/
def Fresh (t : Store) (lo top : ℕ) : Prop :=
  lo % 16 = 0 ∧ top ≤ shadowLimit ∧ ∀ o ∈ t.objs, top ≤ o.lo ∨ o.top ≤ lo

instance (t : Store) (lo top : ℕ) : Decidable (t.Fresh lo top) :=
  inferInstanceAs (Decidable (_ ∧ _))

/-- The number of the block that starts at the pointer. -/
def find (t : Store) (ptr : ℕ) : Option ℕ := t.blocks.findIdx? fun b => b.userAddr = ptr

/-- The block whose extent has the address. -/
def enclosing (t : Store) (x : ℕ) : Option Block :=
  t.blocks.find? fun b => b.realBase ≤ x && x < b.realBase + b.totalSize

/-- The object whose guard the chunk of `x` is. -/
def guardOf (t : Store) (x : ℕ) : Option Zone :=
  (t.zones.find? fun z => z.1.Blank x).map Prod.snd

/-! ### Heap calls -/

/-- A block is placed behind a red zone, at the first address with the alignment. -/
def allocate (t : Store) (size align : ℕ) (file : Option String) (line : ℤ) (sys : Sys) :
    Except Abort (Option ℕ × Store) :=
  let total := size + 2 * redzoneSize + slackOf align
  if wordSize ≤ total then .ok (none, t)
  else
    match sys.malloc with
    | none => .ok (none, t)
    | some base =>
      if TableFull t.blocks.length ∧ sys.growOk = false then .error .outOfMemory
      else
        let user := (base + redzoneSize + (align - 1)) / align * align
        .ok (some user,
          { t with blocks := t.blocks ++ [⟨base, total, user, size, false, file, line⟩] })

def alignedAlloc (t : Store) (alignment size : ℕ) (file : Option String) (line : ℤ) (sys : Sys) :
    Except Abort (Option ℕ × Store) :=
  if isPow2 alignment then t.allocate size (max alignment redzoneSize) file line sys
  else .ok (none, t)

/-- The pointer is put where the caller wants it. -/
def posixMemalign (t : Store) (memptr alignment size : ℕ) (file : Option String) (line : ℤ)
    (sys : Sys) : Except Abort (ℤ × Store) :=
  if memptr ≠ 0 ∧ isPow2 alignment = true ∧ 8 ∣ alignment then
    match t.allocate size (max alignment redzoneSize) file line sys with
    | .error e => .error e
    | .ok (none, t) => .ok (enomem, t)
    | .ok (some p, t) => .ok (0, { t with data := store64 t.data memptr p })
  else .ok (einval, t)

/-- A product that is no machine word is refused. -/
def calloc (t : Store) (nmemb size : ℕ) (file : Option String) (line : ℤ) (sys : Sys) :
    Except Abort (Option ℕ × Store) :=
  if wordSize ≤ nmemb * size then .ok (none, t)
  else
    match t.allocate (nmemb * size) redzoneSize file line sys with
    | .error e => .error e
    | .ok (none, t) => .ok (none, t)
    | .ok (some p, t) => .ok (some p, { t with data := Shadow.memset t.data p 0 (nmemb * size) })

/-- A pointer is the start of a live block, the start of a freed one, inside a block, or
none of the store's business. -/
def free (t : Store) (ptr : ℕ) : Except Abort Store :=
  match t.find ptr with
  | some i =>
    match t.blocks[i]? with
    | none => .ok t
    | some b =>
      if b.freed then .error (.freeError "double-free" ptr)
      else .ok { t with blocks := t.blocks.set i { b with freed := true } }
  | none =>
    if ptr ≠ 0 ∧ (t.enclosing ptr).isSome then .error (.freeError "invalid-free" ptr)
    else .ok t

/-- How many bytes a reallocation keeps: none of what is not a live block. -/
def kept (t : Store) (ptr size : ℕ) : ℕ :=
  match (t.find ptr).bind fun i => t.blocks[i]? with
  | some b => if b.freed then 0 else min b.userSize size
  | none => 0

/-- A new block, the bytes of the old one as far as they fit, and a free. -/
def realloc (t : Store) (ptr size : ℕ) (file : Option String) (line : ℤ) (sys : Sys) :
    Except Abort (Option ℕ × Store) :=
  if ptr = 0 then t.allocate size redzoneSize file line sys
  else if size = 0 then (t.free ptr).map fun t => (none, t)
  else
    match t.allocate size redzoneSize file line sys with
    | .error e => .error e
    | .ok (none, t) => .ok (none, t)
    | .ok (some np, t) =>
      let t := { t with data := Shadow.memmove t.data np ptr (t.kept ptr size) }
      (t.free ptr).map fun t => (some np, t)

def heap (t : Store) : HeapCall → Except Abort (Reply × Store)
  | .malloc size file line sys =>
    (t.allocate size redzoneSize file line sys).map (Prod.map .pointer id)
  | .alignedAlloc alignment size file line sys =>
    (t.alignedAlloc alignment size file line sys).map (Prod.map .pointer id)
  | .posixMemalign memptr alignment size file line sys =>
    (t.posixMemalign memptr alignment size file line sys).map (Prod.map .code id)
  | .calloc nmemb size file line sys =>
    (t.calloc nmemb size file line sys).map (Prod.map .pointer id)
  | .realloc ptr size file line sys =>
    (t.realloc ptr size file line sys).map (Prod.map .pointer id)
  | .free ptr => (t.free ptr).map fun t => (.done, t)

/-! ### Accesses -/

/-- The name of a violation that starts in no block: the guard that the chunk of the first
byte is, or else that of the last byte. -/
def kindOf (t : Store) (a last : ℕ) : String :=
  match (t.guardOf a).or (t.guardOf last) with
  | some .stack => "stack-buffer-overflow"
  | some .global => "global-buffer-overflow"
  | _ => "buffer-overflow"

/-- An access is stopped if its first or its last byte is off limits. -/
def check (t : Store) (a size : ℕ) (isWrite : Bool) (file : Option String) (line : ℤ) :
    Except Abort Unit :=
  let last := (a + size - 1) % wordSize
  if size = 0 ∨ ¬ t.OffLimits a ∧ ¬ t.OffLimits last then .ok ()
  else
    match t.enclosing a with
    | some b =>
      .error (.access ⟨if b.freed then "use-after-free" else "heap-buffer-overflow",
        a, size, isWrite, file, line, some b⟩)
    | none => .error (.access ⟨t.kindOf a last, a, size, isWrite, file, line, none⟩)

/-- A copy is made when both ranges have passed. -/
def copy (t : Store) (dst src n : ℕ) (file : Option String) (line : ℤ) :
    Except Abort (Reply × Store) := do
  t.check dst n true file line
  t.check src n false file line
  return (.pointer (some dst), { t with data := Shadow.memmove t.data dst src n })

def fill (t : Store) (dst : ℕ) (c : UInt8) (n : ℕ) (file : Option String) (line : ℤ) :
    Except Abort (Reply × Store) := do
  t.check dst n true file line
  return (.pointer (some dst), { t with data := Shadow.memset t.data dst c n })

def load (t : Store) (a n : ℕ) (file : Option String) (line : ℤ) :
    Except Abort (Reply × Store) := do
  t.check a n false file line
  return (.bytes (readBytes t.data a n), t)

def store (t : Store) (a : ℕ) (bytes : List UInt8) (file : Option String) (line : ℤ) :
    Except Abort (Reply × Store) := do
  t.check a bytes.length true file line
  return (.done, { t with data := writeBytes t.data a bytes })

/-! ### Service -/

/-- What the store replies, and what becomes of it. -/
def serve (t : Store) : Request → Except Abort (Reply × Store)
  | .heap c => t.heap c
  | .owns ptr => .ok (.owned (t.find ptr).isSome, t)
  | .usableSize ptr =>
    .ok (.size (((t.find ptr).bind fun i => t.blocks[i]?).elim 0 Block.userSize), t)
  | .stackEnter v => .ok (.done, { t with stack := v :: t.stack })
  | .stackLeave v => .ok (.done, { t with stack := t.stack.erase v })
  | .globalRegister g => .ok (.done, { t with internals := g :: t.internals })
  | .globalRegisterRight g => .ok (.done, { t with externals := g :: t.externals })
  | .check a size isWrite file line =>
    (t.check a size isWrite file line).map fun _ => (.done, t)
  | .memcpy dst src n file line => t.copy dst src n file line
  | .memmove dst src n file line => t.copy dst src n file line
  | .memset dst c n file line => t.fill dst c n file line
  | .load a n file line => t.load a n file line
  | .store a bytes file line => t.store a bytes file line

/-- The system hands out an extent of its own for what a call asks for. -/
def Supplied (t : Store) (c : HeapCall) : Prop :=
  ∀ r ∈ c.request, ∀ base ∈ r.2.2.malloc, r.1 + 2 * redzoneSize + slackOf r.2.1 < wordSize →
    t.Fresh base (base + (r.1 + 2 * redzoneSize + slackOf r.2.1))

instance (t : Store) (c : HeapCall) : Decidable (t.Supplied c) :=
  inferInstanceAs (Decidable (∀ r ∈ c.request, ∀ base ∈ r.2.2.malloc, _ → _))

/-- Where a pointer is put for the caller, no object has a guard. -/
def Delivered (t : Store) (c : HeapCall) : Prop :=
  match t.heap c with
  | .error _ => True
  | .ok (reply, t') => reply = .code 0 → ∀ x ∈ c.out, ¬ t'.OffLimits x

instance (t : Store) (c : HeapCall) : Decidable (t.Delivered c) :=
  match h : t.heap c with
  | .error _ => .isTrue (by simp only [Delivered, h])
  | .ok (reply, t') =>
    decidable_of_iff (reply = .code 0 → ∀ x ∈ c.out, ¬ t'.OffLimits x) (by
      simp only [Delivered, h])

/-- The access is small, or none of its bytes is off limits where its ends are not. -/
def Seamless (t : Store) (a n : ℕ) : Prop :=
  n ≤ 16 ∨ (¬ t.OffLimits a → ¬ t.OffLimits ((a + n - 1) % wordSize) →
    ∀ i < n, ¬ t.OffLimits (a + i))

instance (t : Store) (a n : ℕ) : Decidable (t.Seamless a n) :=
  inferInstanceAs (Decidable (_ ∨ (_ → _ → ∀ i < n, _)))

/-- What a client may ask: the system supplies fresh extents, a pointer is delivered where
nothing is guarded, variables that are left are active, the ranges of a copy that may not
overlap do not, and the accesses are seamless. -/
def Allowed (t : Store) : Request → Prop
  | .heap c => c.alignment < wordSize ∧ t.Supplied c ∧ t.Delivered c
  | .owns _ | .usableSize _ | .check _ _ _ _ _ => True
  | .stackEnter v => t.Fresh v.base (v.base + v.size + 2 * redzoneSize)
  | .stackLeave v => v ∈ t.stack
  | .globalRegister g =>
    redzoneSize ≤ g.data ∧ t.Fresh (g.data - redzoneSize) (g.data + g.size + redzoneSize)
  | .globalRegisterRight g => t.Fresh g.data (g.data + g.size + redzoneSize)
  | .memcpy dst src n _ _ =>
    t.Seamless dst n ∧ t.Seamless src n ∧ (dst + n ≤ src ∨ src + n ≤ dst)
  | .memmove dst src n _ _ => t.Seamless dst n ∧ t.Seamless src n
  | .memset dst _ n _ _ => t.Seamless dst n
  | .load a n _ _ => t.Seamless a n
  | .store a bytes _ _ => t.Seamless a bytes.length

instance (t : Store) : (r : Request) → Decidable (t.Allowed r)
  | .heap _ => inferInstanceAs (Decidable (_ < wordSize ∧ t.Supplied _ ∧ t.Delivered _))
  | .owns _ | .usableSize _ | .check _ _ _ _ _ => .isTrue trivial
  | .stackEnter _ => inferInstanceAs (Decidable (t.Fresh _ _))
  | .stackLeave v => inferInstanceAs (Decidable (v ∈ t.stack))
  | .globalRegister _ => inferInstanceAs (Decidable (_ ∧ t.Fresh _ _))
  | .globalRegisterRight _ => inferInstanceAs (Decidable (t.Fresh _ _))
  | .memcpy _ _ _ _ _ => inferInstanceAs (Decidable (t.Seamless _ _ ∧ t.Seamless _ _ ∧ _))
  | .memmove _ _ _ _ _ => inferInstanceAs (Decidable (t.Seamless _ _ ∧ t.Seamless _ _))
  | .memset _ _ _ _ _ | .load _ _ _ _ | .store _ _ _ _ =>
    inferInstanceAs (Decidable (t.Seamless _ _))

end Store

end Redzone.Shadow
