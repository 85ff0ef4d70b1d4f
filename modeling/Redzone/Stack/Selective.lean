/-
  Stack/Selective.lean --- what the skipped checks miss.

  The program with a check before every access and the program with the checks that the
  pass keeps run alike until the first report.  A skipped access that is provably in
  bounds of a static alloca is never reported.  An access that is skipped because the same
  pointer has been checked before can be: the earlier check has tested the two end bytes
  of a larger access, and a variable may have been entered in the meantime.
-/
import Redzone.Stack.LiveFrames

set_option autoImplicit false

namespace Redzone.Stack

open Redzone.Foundation
open Redzone.Shadow hiding Block
open Redzone.Pass (Value TypeSize)

/-! ## Reports -/

/-- An access that a frame makes. -/
structure Access where
  frame : Frame
  ptr : Value
  addr : ℕ
  size : ℕ
  isWrite : Bool

/-- The last byte of an access. -/
def Access.last (x : Access) : ℕ := (x.addr + x.size - 1) % wordSize

/-- The access that an event makes. -/
def Machine.access (m : Machine) : Event → Option Access
  | .step t _ =>
    match m.top t with
    | none => none
    | some fr =>
      if fr.waiting then none
      else
        match fr.insts[fr.pc]? with
        | none => none
        | some I =>
          match accessInfo I with
          | none => none
          | some (ptr, size) => (fr.addr ptr).map fun a => ⟨fr, ptr, a, size, I.isWrite⟩
  | _ => none

/-- `__redzone_check` reports the access. -/
def Access.bad (x : Access) (rt : Rt) : Bool :=
  match redzoneCheck rt x.addr x.size x.isWrite none 0 with
  | .ok _ => false
  | .error _ => true

/-- The check before every access reports. -/
def reports (m : Machine) (ev : Event) : Bool := (m.access ev).any fun x => x.bad m.rt

/-- The pass skips the access. -/
def Access.skipped (x : Access) : Bool := Stack.skipped x.frame.fn.strip x.frame.insts x.frame.pc

/-- The checks that the pass keeps report. -/
def keptReports (m : Machine) (ev : Event) : Bool :=
  (m.access ev).any fun x => x.bad m.rt && !x.skipped

/-- Whatever the check before every access reports first, the kept checks report there or
earlier. -/
def NothingLost (m : Machine) (evs : List Event) : Prop :=
  ∀ k, firstFlag mstep reports m evs = some k → ∃ j ≤ k, firstFlag mstep keptReports m evs = some j

/-! ## The condition -/

/-- The byte is a guard of the object, and the shadow covers it. -/
def GuardByte (o : Obj) (x : ℕ) : Prop := x < shadowLimit ∧ o.region.Guards x

/-- The variable of an alloca that the frame has executed after place `i` of its block. -/
def Frame.EnteredSince (fr : Frame) (i : ℕ) (v : StackVar) : Prop :=
  ∃ j, i < j ∧ j < fr.pc ∧ ∃ s ∈ fr.slots, fr.insts[j]? = some (.alloca s.alloca) ∧ s.var = some v

/-- An access that repeats an earlier check, of `checked` bytes at place `i`, touches no guard
that this check has passed over: if it is smaller, its last byte is no guard; and no
variable that has been entered since has a guard at one of its ends. -/
structure Access.Harmless (x : Access) (objs : List Obj) (checked i : ℕ) : Prop where
  end_clear : x.size < checked → ∀ o ∈ objs, ¬ GuardByte o x.last
  entered_clear : ∀ v, x.frame.EnteredSince i v →
    ¬ GuardByte v.obj x.addr ∧ ¬ GuardByte v.obj x.last

/-- The condition on one event. -/
def RepeatsHarmless (m : Machine) (ev : Event) : Prop :=
  ∀ x ∈ m.access ev, ∀ c ∈ covering x.frame.fn.strip x.frame.insts x.frame.pc,
    x.size ≠ 0 → x.Harmless m.world.objs c.1 c.2

/-- An event of thread `t` that leaves no frame other than by a return. -/
def Event.Returning (t : ℕ) : Event → Prop
  | .enter t' _ _ | .step t' _ | .back t' _ | .jump t' _ _ | .ret t' | .op t' _ => t' = t
  | .unwind _ | .land _ _ _ => False

/-! ## Accesses that are provably safe -/

section Safe

variable {m : Machine} {fr : Frame} {ptr : Value} {size addr : ℕ}

theorem slot_plain {s : Slot} {objSize : ℕ} (hwrapped : s.alloca.wrapped = none)
    (hsize : s.alloca.size = some (.fixed objSize)) : s.plain = some (s.base, s.base + objSize) := by
  unfold Slot.plain
  rw [hwrapped, hsize]
  rfl

theorem wrapped_size {a : Alloca} {n objSize : ℕ} (hwrapped : a.wrapped = some n)
    (hsize : a.size = some (.fixed objSize)) : n = objSize := by
  unfold Alloca.wrapped at hwrapped
  rw [hsize] at hwrapped
  split at hwrapped
  · simp at hwrapped
  · simp only at hwrapped
    split at hwrapped
    · simp at hwrapped
    · exact (Option.some.inj hwrapped).symm

theorem offset_eq {a : ℕ} {off : ℤ} (hoff : 0 ≤ off) (hlt : a + off.toNat < wordSize) :
    offset a off = a + off.toNat := by
  unfold offset
  have hcast : (a : ℤ) + off = ((a + off.toNat : ℕ) : ℤ) := by
    rw [Nat.cast_add, Int.toNat_of_nonneg hoff]
  rw [hcast, ← Int.natCast_emod, Int.toNat_natCast, Nat.mod_eq_of_lt hlt]

/-- The slot that an address comes from. -/
theorem addr_of_alloca {a : Alloca} {off : ℤ} (hstrip : fr.fn.strip ptr = (.alloca a, off))
    (haddr : fr.addr ptr = some addr) :
    ∃ s ∈ fr.slots, s.alloca = a ∧ addr = offset s.pointer off := by
  unfold Frame.addr at haddr
  rw [hstrip] at haddr
  obtain ⟨s, hs, rfl⟩ := Option.map_eq_some_iff.mp haddr
  have hfound := List.find?_some hs
  exact ⟨s, List.mem_of_find?_eq_some hs, by simpa using hfound, rfl⟩

theorem safe_bounds (hsafe : provablySafeAlloca fr.fn.strip ptr size = true) :
    ∃ a off objSize, fr.fn.strip ptr = (.alloca a, off) ∧ a.size = some (.fixed objSize) ∧
      0 ≤ off ∧ off.toNat ≤ objSize ∧ size ≤ objSize - off.toNat := by
  unfold provablySafeAlloca at hsafe
  rcases hstrip : fr.fn.strip ptr with ⟨a | v, off⟩
  · rw [hstrip] at hsafe
    simp only [Bool.and_eq_true] at hsafe
    obtain ⟨-, hsafe⟩ := hsafe
    split at hsafe
    · rename_i objSize hsize
      simp only [Bool.and_eq_true, decide_eq_true_eq] at hsafe
      exact ⟨a, off, objSize, rfl, hsize, hsafe.1.1, hsafe.1.2, hsafe.2⟩
    · simp at hsafe
  · rw [hstrip] at hsafe
    simp at hsafe

/-- Memory that is apart from all objects is not poisoned. -/
theorem Machine.Inv.plain_clear (h : m.Inv) {e : ℕ × ℕ} (he : e ∈ m.plains) {x : ℕ}
    (hlo : e.1 ≤ x) (hhi : x < e.2) : bytePoisoned m.rt.shadow x = false := by
  rw [Bool.eq_false_iff]
  intro hbad
  obtain ⟨-, o, ho, hguard⟩ := (h.painted.bytePoisoned_iff x).mp hbad
  have hmem : o.lo ≤ x ∧ x < roundUp8 o.top := hguard.1
  rcases (h.apart e he).2 o ho with hd | hd <;> omega

/-- The user bytes of a variable are not poisoned. -/
theorem Machine.Inv.var_clear (h : m.Inv) {v : StackVar} (hv : v ∈ m.world.stack) {x : ℕ}
    (hlo : v.base + redzoneSize ≤ x) (hhi : x < v.base + redzoneSize + v.size) :
    bytePoisoned m.rt.shadow x = false := by
  have hz : (⟨v.obj, stackRz⟩ : Zoned) ∈ m.world.zoned := by
    rw [World.zoned_eq]
    exact List.mem_append_right _ (List.mem_append_left _ (List.mem_map_of_mem hv))
  have hmem : (Zoned.tile ⟨v.obj, stackRz⟩).Mem x := by
    have hround : v.base + v.size + 2 * redzoneSize ≤
        roundUp8 (v.base + v.size + 2 * redzoneSize) := by
      simp only [roundUp8]
      omega
    refine ⟨(Nat.le_add_right _ _).trans hlo, lt_of_lt_of_le ?_ hround⟩
    simp only [redzoneSize] at hhi ⊢
    omega
  rw [Bool.eq_false_iff]
  intro hbad
  have hlim := ((h.painted.bytePoisoned_iff x).mp hbad).1
  have hguard := (h.painted.bytePoisoned_of_mem hz hmem hlim).mp hbad
  exact hguard.2 ⟨rfl, hlo, hhi⟩

/-- The bytes of a provably safe access are not poisoned, and lie in one piece. -/
theorem Machine.Inv.safe_clear (h : m.Inv) (hfr : fr ∈ m.frames)
    (hsafe : provablySafeAlloca fr.fn.strip ptr size = true) (haddr : fr.addr ptr = some addr) :
    addr + size ≤ wordSize ∧
      ∀ x, addr ≤ x → x < addr + size → bytePoisoned m.rt.shadow x = false := by
  obtain ⟨a, off, objSize, hstrip, hobj, hoff, hle, hfits⟩ := safe_bounds hsafe
  obtain ⟨s, hs, rfl, rfl⟩ := addr_of_alloca hstrip haddr
  cases hwrapped : s.alloca.wrapped with
  | none =>
      have hplain := slot_plain hwrapped hobj
      have hmem : (s.base, s.base + objSize) ∈ m.plains :=
        List.mem_flatMap.mpr ⟨fr, hfr, List.mem_filterMap.mpr ⟨s, hs, hplain⟩⟩
      have hend := (h.apart _ hmem).1
      have hpointer : s.pointer = s.base := by
        unfold Slot.pointer
        rw [hwrapped]
        rfl
      simp only at hend
      rw [hpointer, offset_eq hoff (by omega)]
      refine ⟨by omega, fun x hlo hhi => h.plain_clear hmem ?_ ?_⟩
      · simp only
        omega
      · simp only
        omega
  | some n =>
      obtain rfl := wrapped_size hwrapped hobj
      obtain ⟨hvar, -⟩ := Slot.plain_of_wrapped hwrapped
      have hmem : (⟨s.base, n⟩ : StackVar) ∈ m.world.stack :=
        List.mem_flatMap.mpr ⟨fr, hfr, List.mem_filterMap.mpr ⟨s, hs, hvar⟩⟩
      have hobj' : StackVar.obj ⟨s.base, n⟩ ∈ m.world.objs :=
        World.mem_objs.mpr (Or.inr (Or.inl ⟨_, hmem, rfl⟩))
      rw [← World.zoned_obj] at hobj'
      obtain ⟨z, hz, hzobj⟩ := List.mem_map.mp hobj'
      have hend := (h.painted.laid z hz).top_lt
      rw [hzobj] at hend
      have hpointer : s.pointer = s.base + redzoneSize := by
        unfold Slot.pointer
        rw [hwrapped]
        rfl
      simp only [StackVar.obj, redzoneSize] at hend hpointer
      rw [hpointer, offset_eq hoff (by omega)]
      refine ⟨by omega, fun x hlo hhi => h.var_clear hmem ?_ ?_⟩
      · simp only [redzoneSize]
        omega
      · simp only [redzoneSize]
        omega

end Safe

/-! ## Accesses -/

section Accesses

variable {m : Machine} {ev : Event} {x : Access} {rt : Rt} {c i : ℕ}

theorem access_eq_some (h : m.access ev = some x) : ∃ t value I, ev = .step t value ∧
    m.top t = some x.frame ∧ x.frame.waiting = false ∧ x.frame.insts[x.frame.pc]? = some I ∧
    accessInfo I = some (x.ptr, x.size) ∧ x.frame.addr x.ptr = some x.addr := by
  cases ev with
  | enter | back | jump | ret | unwind | land | op => simp [Machine.access] at h
  | step t value =>
      simp only [Machine.access] at h
      split at h
      · simp at h
      rename_i fr htop
      split at h
      · simp at h
      rename_i hwaiting
      split at h
      · simp at h
      rename_i I hI
      split at h
      · simp at h
      rename_i ptr size haccess
      obtain ⟨a, haddr, rfl⟩ := Option.map_eq_some_iff.mp h
      exact ⟨t, value, I, rfl, htop, by simpa using hwaiting, hI, haccess, haddr⟩

/-- What `__redzone_check` reports. -/
theorem bad_iff : x.bad rt = true ↔
    x.size ≠ 0 ∧ (bytePoisoned rt.shadow x.addr = true ∨ bytePoisoned rt.shadow x.last = true) := by
  have hcheck : x.bad rt = true ↔ redzoneCheck rt x.addr x.size x.isWrite none 0 ≠ .ok () := by
    unfold Access.bad
    cases redzoneCheck rt x.addr x.size x.isWrite none 0 with
    | ok u => simp
    | error e => simp
  rw [hcheck]
  rcases Nat.eq_zero_or_pos x.size with hsize | hsize
  · rw [hsize]
    simp [redzoneCheck]
  · rw [ne_eq, redzoneCheck_ok hsize]
    simp only [hsize.ne', ne_eq, not_false_eq_true, true_and, not_and_or, Bool.not_eq_false]
    exact Iff.rfl

/-- An access is covered by an earlier check of the same pointer that is at least as large. -/
theorem covering_eq_some {I : Inst} (hI : x.frame.insts[x.frame.pc]? = some I)
    (haccess : accessInfo I = some (x.ptr, x.size))
    (h : covering x.frame.fn.strip x.frame.insts x.frame.pc = some (c, i)) :
    checkedAt x.frame.fn.strip x.frame.insts x.frame.pc x.ptr = some (c, i) ∧ x.size ≤ c := by
  unfold covering at h
  rw [hI] at h
  simp only [haccess] at h
  split at h
  · simp at h
  · split at h
    · rename_i hchecked
      split at h
      · rename_i hle
        obtain ⟨rfl, rfl⟩ := Prod.mk.inj (Option.some.inj h)
        exact ⟨hchecked, hle.1⟩
      · simp at h
    · simp at h

theorem skipped_iff {I : Inst} (hI : x.frame.insts[x.frame.pc]? = some I)
    (haccess : accessInfo I = some (x.ptr, x.size)) :
    x.skipped = true ↔ provablySafeAlloca x.frame.fn.strip x.ptr x.size = true ∨
      ∃ c, covering x.frame.fn.strip x.frame.insts x.frame.pc = some c := by
  unfold Access.skipped skipped safeAt
  rw [hI]
  simp only [haccess, Bool.or_eq_true, Option.isSome_iff_exists]

end Accesses

/-! ## What has been checked stays checked -/

/-- The guards that the frame's earlier checks have not seen belong to variables entered
since. -/
def Frame.Valid (fr : Frame) (objs : List Obj) : Prop :=
  ∀ ptr c i, checkedAt fr.fn.strip fr.insts fr.pc ptr = some (c, i) →
    ∃ a, fr.addr ptr = some a ∧ ∀ o ∈ objs, (∃ v, fr.EnteredSince i v ∧ o = v.obj) ∨
      (¬ GuardByte o a ∧ ¬ GuardByte o ((a + c - 1) % wordSize))

/-- Nothing counts as checked. -/
def Frame.Idle (fr : Frame) : Prop :=
  ∀ ptr, checkedAt fr.fn.strip fr.insts fr.pc ptr = none

section Valid

variable {fr fr' : Frame} {objs objs' : List Obj} {I : Inst}

theorem Frame.Idle.valid (h : fr.Idle) : fr.Valid objs := by
  intro ptr c i hchecked
  rw [h ptr] at hchecked
  simp at hchecked

theorem Function.ssa_insts (f : Function) (b : ℕ) :
    (∀ I ∈ f.insts b, Clobbers f.strip I I = false) ∧
      (f.insts b).Pairwise fun I J => Clobbers f.strip I J = false := by
  unfold Function.insts
  cases hB : f.blocks[b]? with
  | none => simp
  | some B => exact f.ssa B (List.mem_of_getElem? hB)

theorem pointer_of_accessInfo {ptr : Value} {size : ℕ} (h : accessInfo I = some (ptr, size)) :
    I.pointer = some ptr := by
  cases I with
  | alloca | call | other => simp [accessInfo] at h
  | load dst p ts | store p ts =>
      cases ts with
      | scalable n => simp [accessInfo] at h
      | fixed n =>
          simp only [accessInfo, Option.some.injEq, Prod.mk.injEq] at h
          rw [← h.1]
          rfl

theorem defines_ne {strip : Value → Base × ℤ} {J : Inst} {ptr : Value} {size : ℕ}
    (haccess : accessInfo J = some (ptr, size)) (h : Clobbers strip J I = false) :
    I.defines ≠ some (strip ptr).1 := by
  unfold Clobbers at h
  rw [pointer_of_accessInfo haccess] at h
  simpa using h

/-- An instruction keeps what has been checked, and adds what it checks itself. -/
theorem Frame.Valid.advance (h : fr.Valid objs) (hI : fr.insts[fr.pc]? = some I)
    (hfn : fr'.fn = fr.fn) (hblock : fr'.block = fr.block) (hpc : fr'.pc = fr.pc + 1)
    (hslots : ∀ s ∈ fr.slots, s ∈ fr'.slots)
    (haddr : ∀ ptr, I.defines ≠ some (fr.fn.strip ptr).1 → fr'.addr ptr = fr.addr ptr)
    (hobjs : ∀ o ∈ objs', o ∈ objs ∨ ∃ s ∈ fr'.slots, I = .alloca s.alloca ∧
      ∃ v, s.var = some v ∧ o = v.obj)
    (hcheck : ∀ ptr size, accessInfo I = some (ptr, size) → 0 < size →
      ∃ a, fr.addr ptr = some a ∧
        ∀ o ∈ objs, ¬ GuardByte o a ∧ ¬ GuardByte o ((a + size - 1) % wordSize)) :
    fr'.Valid objs' := by
  have hinsts : fr'.insts = fr.insts := by
    unfold Frame.insts
    rw [hfn, hblock]
  obtain ⟨hself, hpair⟩ := fr.fn.ssa_insts fr.block
  -- a new object is that of the alloca that has just been executed
  have hnew : ∀ {i : ℕ}, i < fr.pc → ∀ o ∈ objs', o ∉ objs →
      ∃ v, fr'.EnteredSince i v ∧ o = v.obj := by
    intro i hi o ho hout
    rcases hobjs o ho with hold | ⟨s, hs, rfl, v, hv, hov⟩
    · exact absurd hold hout
    · refine ⟨v, ⟨fr.pc, hi, by omega, s, hs, ?_, hv⟩, hov⟩
      rw [hinsts]
      exact hI
  intro ptr c i hchecked
  rw [hfn, hinsts, hpc] at hchecked
  unfold checkedAt at hchecked
  rw [hI] at hchecked
  rcases (scanInst_eq_some hchecked).2 with hold | ⟨rfl, haccess, -, hmore⟩
  · obtain ⟨J, hJ, hJaccess⟩ := checkedAt_access hold
    have hlt := (checkedAt_lt hold).1
    have hclob : Clobbers fr.fn.strip J I = false := by
      obtain ⟨hi', rfl⟩ := List.getElem?_eq_some_iff.mp hJ
      obtain ⟨hpc', rfl⟩ := List.getElem?_eq_some_iff.mp hI
      exact List.pairwise_iff_getElem.mp hpair i fr.pc hi' hpc' hlt
    obtain ⟨a, ha, hclear⟩ := h ptr c i hold
    refine ⟨a, (haddr ptr (defines_ne hJaccess hclob)).trans ha, fun o ho => ?_⟩
    by_cases hin : o ∈ objs
    · rcases hclear o hin with ⟨v, ⟨j, hij, hj, s, hs, hinst, hv⟩, hov⟩ | hclear
      · refine Or.inl ⟨v, ⟨j, hij, by omega, s, hslots s hs, ?_, hv⟩, hov⟩
        rw [hinsts]
        exact hinst
      · exact Or.inr hclear
    · exact Or.inl (hnew hlt o ho hin)
  · obtain ⟨a, ha, hclear⟩ := hcheck ptr c haccess ((Nat.zero_le _).trans_lt hmore)
    have hmem := List.mem_of_getElem? hI
    refine ⟨a, (haddr ptr (defines_ne haccess (hself I hmem))).trans ha, fun o ho => ?_⟩
    rcases hobjs o ho with hin | ⟨s, -, rfl, -⟩
    · exact Or.inr (hclear o hin)
    · simp [accessInfo] at haccess

end Valid

/-! ## The invariant -/

/-- All frames are of thread `t`; what counts as checked in the top frame is valid, and in
the frames that wait nothing counts as checked. -/
structure Validated (t : ℕ) (m : Machine) : Prop where
  inv : m.Inv
  tids : ∀ fr ∈ m.frames, fr.tid = t
  rest_idle : ∀ fr ∈ m.rest t, fr.Idle
  waiting_idle : ∀ fr, m.top t = some fr → fr.waiting = true → fr.Idle
  valid : ∀ fr, m.top t = some fr → fr.Valid m.world.objs

section Validated

variable {m m' : Machine} {t : ℕ} {fr fr' : Frame} {ev : Event}

theorem top_of_cons (hframes : m'.frames = fr' :: m.rest t) (htid : fr'.tid = t) :
    m'.top t = some fr' ∧ m'.rest t = m.rest t := by
  unfold Machine.top
  rw [hframes, List.find?_cons_of_pos (by simpa using htid)]
  refine ⟨rfl, ?_⟩
  show m'.frames.eraseP _ = _
  rw [hframes, List.eraseP_cons_of_pos (by simpa using htid)]

/-- The top frame goes on. -/
theorem Validated.put (h : Validated t m) (fr' : Frame) (hinv : m'.Inv)
    (hframes : m'.frames = fr' :: m.rest t) (htid : fr'.tid = t)
    (hwaiting : fr'.waiting = true → fr'.Idle) (hvalid : fr'.Valid m'.world.objs) :
    Validated t m' := by
  obtain ⟨htop, hrest⟩ := top_of_cons hframes htid
  refine ⟨hinv, ?_, ?_, ?_, ?_⟩
  · rw [hframes]
    refine List.forall_mem_cons.mpr ⟨htid, fun fr hfr => ?_⟩
    exact h.tids fr (List.mem_of_mem_eraseP hfr)
  · rw [hrest]
    exact h.rest_idle
  · intro fr hfr
    obtain rfl := Option.some.inj (htop.symm.trans hfr)
    exact hwaiting
  · intro fr hfr
    obtain rfl := Option.some.inj (htop.symm.trans hfr)
    exact hvalid

/-- All frames are idle while code outside runs. -/
theorem Validated.idle_of_outside (h : Validated t m) (hout : m.outside t = true) :
    ∀ fr ∈ m.frames, fr.Idle := by
  intro fr hfr
  cases htop : m.top t with
  | none =>
      have hnone := List.find?_eq_none.mp htop fr hfr
      exact absurd (h.tids fr hfr) (by simpa using hnone)
  | some fr' =>
      have hwait : fr'.waiting = true := by
        unfold Machine.outside at hout
        rw [htop] at hout
        exact hout
      rcases List.mem_cons.mp ((m.top_perm htop).mem_iff.mp hfr) with rfl | hrest
      · exact h.waiting_idle fr htop hwait
      · exact h.rest_idle fr hrest

/-- The same for a machine whose frames are all idle. -/
theorem validated_of_idle (hinv : m'.Inv) (htids : ∀ fr ∈ m'.frames, fr.tid = t)
    (hidle : ∀ fr ∈ m'.frames, fr.Idle) : Validated t m' := by
  refine ⟨hinv, htids, ?_, ?_, ?_⟩
  · exact fun fr hfr => hidle fr (List.mem_of_mem_eraseP hfr)
  · exact fun fr hfr _ => hidle fr (List.mem_of_find?_eq_some hfr)
  · exact fun fr hfr => (hidle fr (List.mem_of_find?_eq_some hfr)).valid

/-- What an alloca does to the frames and the objects. -/
theorem execAlloca_frames {a : Alloca} {base : ℕ} (h : m.execAlloca fr a base = some m') :
    ∃ fr', m'.frames = fr' :: m.rest fr.tid ∧ fr'.tid = fr.tid ∧ fr'.fn = fr.fn ∧
      fr'.block = fr.block ∧ fr'.pc = fr.pc + 1 ∧ fr'.env = fr.env ∧ fr'.waiting = fr.waiting ∧
      m'.rt.blocks = m.rt.blocks ∧ m'.internals = m.internals ∧ m'.externals = m.externals ∧
      (fr'.slots = fr.slots ∨ fr'.slots = ⟨a, base⟩ :: fr.slots) := by
  unfold Machine.execAlloca at h
  simp only at h
  split at h
  · split at h
    · obtain rfl := Option.some.inj h
      exact ⟨_, rfl, rfl, rfl, rfl, rfl, rfl, rfl, rfl, rfl, rfl, Or.inl rfl⟩
    · obtain rfl := Option.some.inj h
      exact ⟨_, rfl, rfl, rfl, rfl, rfl, rfl, rfl, rfl, rfl, rfl, Or.inl rfl⟩
  · split at h
    · simp at h
    · split at h
      · split at h
        · obtain rfl := Option.some.inj h
          exact ⟨_, rfl, rfl, rfl, rfl, rfl, rfl, rfl, rfl, rfl, rfl, Or.inr rfl⟩
        · simp at h
      · split at h
        · obtain rfl := Option.some.inj h
          exact ⟨_, rfl, rfl, rfl, rfl, rfl, rfl, rfl, rfl, rfl, rfl, Or.inr rfl⟩
        · simp at h

/-- The objects after the top frame has gone on. -/
theorem objs_of_frames {P : Slot → Prop} (htop : m.top t = some fr)
    (hframes : m'.frames = fr' :: m.rest t) (hb : m'.rt.blocks = m.rt.blocks)
    (hint : m'.internals = m.internals) (hext : m'.externals = m.externals)
    (hslots : ∀ s ∈ fr'.slots, s ∈ fr.slots ∨ P s) {o : Obj} (ho : o ∈ m'.world.objs) :
    o ∈ m.world.objs ∨ ∃ s ∈ fr'.slots, P s ∧ ∃ v, s.var = some v ∧ o = v.obj := by
  rw [World.mem_objs] at ho
  simp only [Machine.world, hb, hint, hext] at ho
  rcases ho with hblock | ⟨v, hv, rfl⟩ | hglobal
  · exact Or.inl (World.mem_objs.mpr (Or.inl hblock))
  · have hold : v ∈ m.world.stack → v.obj ∈ m.world.objs :=
      fun hv => World.mem_objs.mpr (Or.inr (Or.inl ⟨v, hv, rfl⟩))
    have hperm := m.stack_perm htop
    rw [hframes, List.flatMap_cons] at hv
    rcases List.mem_append.mp hv with hv | hv
    · obtain ⟨s, hs, hsv⟩ := List.mem_filterMap.mp hv
      rcases hslots s hs with hin | hP
      · refine Or.inl (hold (hperm.mem_iff.mpr (List.mem_append_left _ ?_)))
        exact List.mem_filterMap.mpr ⟨s, hin, hsv⟩
      · exact Or.inr ⟨s, hs, hP, v, hsv, rfl⟩
    · exact Or.inl (hold (hperm.mem_iff.mpr (List.mem_append_right _ hv)))
  · exact Or.inl (World.mem_objs.mpr (Or.inr (Or.inr hglobal)))

/-- A guard of an object is poisoned. -/
theorem Machine.Inv.poisoned (h : m.Inv) {o : Obj} (ho : o ∈ m.world.objs) {x : ℕ}
    (hx : GuardByte o x) : bytePoisoned m.rt.shadow x = true :=
  (h.painted.bytePoisoned_iff x).mpr ⟨hx.1, o, ho, hx.2⟩

/-- An access that is not reported touches no guard with its ends. -/
theorem Machine.Inv.passed (h : m.Inv) (hquiet : reports m ev = false) {x : Access}
    (hx : m.access ev = some x) (hsize : 0 < x.size) :
    ∀ o ∈ m.world.objs, ¬ GuardByte o x.addr ∧ ¬ GuardByte o x.last := by
  have hgood : x.bad m.rt = false := by
    unfold reports at hquiet
    rw [hx] at hquiet
    exact hquiet
  have hclear : ¬ (bytePoisoned m.rt.shadow x.addr = true ∨
      bytePoisoned m.rt.shadow x.last = true) := by
    intro hbad
    rw [bad_iff.mpr ⟨hsize.ne', hbad⟩] at hgood
    simp at hgood
  intro o ho
  exact ⟨fun hg => hclear (Or.inl (h.poisoned ho hg)), fun hg => hclear (Or.inr (h.poisoned ho hg))⟩

/-- An SSA value gets a value: other pointers keep their addresses. -/
theorem addr_update {dst ptr : Value} {value pc : ℕ}
    (h : some (Base.value dst) ≠ some (fr.fn.strip ptr).1) :
    Frame.addr { fr with pc := pc, env := Function.update fr.env dst value } ptr = fr.addr ptr := by
  unfold Frame.addr
  rcases hstrip : fr.fn.strip ptr with ⟨a | v, off⟩
  · rfl
  · rw [hstrip] at h
    have hne : v ≠ dst := fun heq => h (by rw [heq])
    simp only [Function.update_of_ne hne]

/-- An alloca that is executed: other pointers keep their addresses. -/
theorem addr_slot {a : Alloca} {base : ℕ} {ptr : Value} (hfn : fr'.fn = fr.fn)
    (henv : fr'.env = fr.env) (hslots : fr'.slots = fr.slots ∨ fr'.slots = ⟨a, base⟩ :: fr.slots)
    (h : some (Base.alloca a) ≠ some (fr.fn.strip ptr).1) : fr'.addr ptr = fr.addr ptr := by
  unfold Frame.addr
  rw [hfn, henv]
  rcases hstrip : fr.fn.strip ptr with ⟨a' | v, off⟩
  · rw [hstrip] at h
    have hne : ¬ a = a' := fun heq => h (by rw [heq])
    rcases hslots with hslots | hslots
    · simp only [hslots]
    · simp only [hslots, List.find?_cons, hne, decide_false]
  · rfl

/-- What the check of an access that is not reported has tested. -/
theorem Validated.passed (h : Validated t m) {value a size : ℕ} {I : Inst} {ptr : Value}
    (htop : m.top t = some fr) (hwait : fr.waiting = false) (hI : fr.insts[fr.pc]? = some I)
    (hquiet : reports m (.step t value) = false) (haccess : accessInfo I = some (ptr, size))
    (ha : fr.addr ptr = some a) (hsize : 0 < size) :
    ∀ o ∈ m.world.objs, ¬ GuardByte o a ∧ ¬ GuardByte o ((a + size - 1) % wordSize) := by
  have hx : m.access (.step t value) = some ⟨fr, ptr, a, size, I.isWrite⟩ := by
    simp [Machine.access, htop, hwait, hI, haccess, ha]
  exact h.inv.passed hquiet hx hsize

/-- The top frame goes on after an instruction other than a call and an alloca. -/
theorem Validated.goOn (h : Validated t m) {value : ℕ} {I : Inst} (env : Value → ℕ)
    (htop : m.top t = some fr) (hwait : fr.waiting = false) (hI : fr.insts[fr.pc]? = some I)
    (hinv : m'.Inv) (hquiet : reports m (.step t value) = false)
    (haddr : ∀ ptr, I.defines ≠ some (fr.fn.strip ptr).1 →
      Frame.addr { fr with pc := fr.pc + 1, env := env } ptr = fr.addr ptr)
    (hframes : m'.frames = { fr with pc := fr.pc + 1, env := env } :: m.rest t)
    (hb : m'.rt.blocks = m.rt.blocks) (hint : m'.internals = m.internals)
    (hext : m'.externals = m.externals)
    (hsome : ∀ ptr size, accessInfo I = some (ptr, size) → ∃ a, fr.addr ptr = some a) :
    Validated t m' := by
  have htid := m.top_tid htop
  refine h.put _ hinv hframes htid (fun hw => ?_) ?_
  · simp only [hwait] at hw
    simp at hw
  refine (h.valid fr htop).advance hI rfl rfl rfl (fun s hs => hs) haddr ?_ ?_
  · intro o ho
    rcases objs_of_frames (P := fun _ => False) htop hframes hb hint hext
      (fun s hs => Or.inl hs) ho with hold | ⟨s, -, hfalse, -⟩
    · exact Or.inl hold
    · exact hfalse.elim
  · intro ptr size haccess hsize
    obtain ⟨a, ha⟩ := hsome ptr size haccess
    exact ⟨a, ha, h.passed htop hwait hI hquiet haccess ha hsize⟩

theorem Validated.execAlloca (h : Validated t m) {a : Alloca} {value : ℕ}
    (htop : m.top t = some fr) (hwait : fr.waiting = false)
    (hI : fr.insts[fr.pc]? = some (.alloca a)) (hinv : m'.Inv)
    (hexec : m.exec fr value (.alloca a) = some m') : Validated t m' := by
  have htid := m.top_tid htop
  obtain ⟨fr', hframes, htid', hfn, hblock, hpc, henv, hwait', hb, hint, hext, hslots⟩ :=
    execAlloca_frames hexec
  rw [htid] at hframes htid'
  have hsub : ∀ s ∈ fr'.slots, s ∈ fr.slots ∨ s.alloca = a := by
    intro s hs
    rcases hslots with hslots | hslots
    · rw [hslots] at hs
      exact Or.inl hs
    · rw [hslots] at hs
      rcases List.mem_cons.mp hs with rfl | hs
      · exact Or.inr rfl
      · exact Or.inl hs
  refine h.put fr' hinv hframes htid' (fun hw => ?_) ?_
  · rw [hwait', hwait] at hw
    simp at hw
  · refine (h.valid fr htop).advance hI hfn hblock hpc ?_ (fun ptr hne => ?_) ?_ ?_
    · intro s hs
      rcases hslots with hslots | hslots
      · rw [hslots]
        exact hs
      · rw [hslots]
        exact List.mem_cons_of_mem _ hs
    · exact addr_slot hfn henv hslots hne
    · intro o ho
      rcases objs_of_frames htop hframes hb hint hext hsub ho with hold | ⟨s, hs, rfl, hv⟩
      · exact Or.inl hold
      · exact Or.inr ⟨s, hs, rfl, hv⟩
    · intro ptr size haccess
      simp [accessInfo] at haccess

/-- Nothing counts as checked behind a call. -/
theorem idle_behind_call {dst : Value} (hI : fr.insts[fr.pc]? = some (.call dst)) :
    Frame.Idle { fr with pc := fr.pc + 1, waiting := true } := by
  intro ptr
  show checkedAt fr.fn.strip fr.insts (fr.pc + 1) ptr = none
  unfold checkedAt
  rw [hI]
  rfl

/-- The top frame executes an instruction that is not reported. -/
theorem Validated.exec (h : Validated t m) {value : ℕ} {I : Inst} (htop : m.top t = some fr)
    (hwait : fr.waiting = false) (hI : fr.insts[fr.pc]? = some I) (hinv : m'.Inv)
    (hquiet : reports m (.step t value) = false) (hexec : m.exec fr value I = some m') :
    Validated t m' := by
  have htid := m.top_tid htop
  cases I with
  | alloca a => exact h.execAlloca htop hwait hI hinv hexec
  | load dst ptr ts =>
      obtain ⟨a, ha, rfl⟩ := Option.map_eq_some_iff.mp hexec
      refine h.goOn (Function.update fr.env dst value) htop hwait hI hinv hquiet
        (fun p hp => addr_update hp) ?_ rfl rfl rfl fun p size haccess => ?_
      · rw [← htid]
        rfl
      · obtain rfl := Option.some.inj (pointer_of_accessInfo haccess)
        exact ⟨a, ha⟩
  | store ptr ts =>
      obtain ⟨a, ha, rfl⟩ := Option.map_eq_some_iff.mp hexec
      refine h.goOn fr.env htop hwait hI hinv hquiet (fun p _ => rfl) ?_ rfl rfl rfl
        fun p size haccess => ?_
      · rw [← htid]
        rfl
      · obtain rfl := Option.some.inj (pointer_of_accessInfo haccess)
        exact ⟨a, ha⟩
  | call dst =>
      obtain rfl := Option.some.inj hexec
      have hidle := idle_behind_call hI
      refine h.put { fr with pc := fr.pc + 1, waiting := true } hinv ?_ htid (fun _ => hidle)
        hidle.valid
      rw [← htid]
      rfl
  | other dst =>
      obtain rfl := Option.some.inj hexec
      refine h.goOn (Function.update fr.env dst value) htop hwait hI hinv hquiet
        (fun p hp => addr_update hp) ?_ rfl rfl rfl fun p size haccess => ?_
      · rw [← htid]
        rfl
      · simp [accessInfo] at haccess

theorem outsideStep_frames {o : Op} (h : m.outsideStep o = some m') : m'.frames = m.frames := by
  cases o with
  | stackEnter v | stackLeave v => simp [Machine.outsideStep] at h
  | heap c | store addr byte | globalRegister g | globalRegisterRight g =>
      simp only [Machine.outsideStep] at h
      split at h
      · simp at h
      · split at h
        · rw [← Option.some.inj h]
        · simp at h

/-- Nothing counts as checked at the start of a block. -/
theorem idle_of_start (hpc : fr.pc = 0) : fr.Idle := by
  intro ptr
  rw [hpc]
  rfl

/-- An event that is not reported keeps the invariant, if it leaves no frame other than by a
return. -/
theorem Validated.mstep (h : Validated t m) (hev : ev.Returning t) (hquiet : reports m ev = false)
    (hstep : mstep m ev = some m') : Validated t m' := by
  have htidy : Tidy m ev := by
    cases ev with
    | unwind => exact hev.elim
    | enter | step | back | jump | ret | land | op => trivial
  have hinv := h.inv.mstep htidy hstep
  cases stepped hstep with
  | unwind | land => exact hev.elim
  | enter hout =>
      rename_i t' f args
      obtain rfl : t' = t := hev
      refine validated_of_idle hinv ?_ ?_
      · exact List.forall_mem_cons.mpr ⟨rfl, h.tids⟩
      · exact List.forall_mem_cons.mpr ⟨idle_of_start rfl, h.idle_of_outside hout⟩
  | step htop hwait hI hexec =>
      rename_i t' value fr I
      obtain rfl : t' = t := hev
      exact h.exec htop hwait hI hinv hquiet hexec
  | back htop hwait hcall =>
      rename_i t' value fr dst
      obtain rfl : t' = t := hev
      have hidle : Frame.Idle
          { fr with waiting := false, env := Function.update fr.env dst value } :=
        h.waiting_idle fr htop hwait
      have htid := m.top_tid htop
      refine h.put { fr with waiting := false, env := Function.update fr.env dst value } hinv ?_
        htid (fun _ => hidle) hidle.valid
      rw [← htid]
      rfl
  | jump htop hend hb =>
      rename_i t' b phis fr succs
      obtain rfl : t' = t := hev
      have hidle : Frame.Idle { fr with block := b, pc := 0, env := assign fr.env phis } :=
        idle_of_start rfl
      have htid := m.top_tid htop
      refine h.put { fr with block := b, pc := 0, env := assign fr.env phis } hinv ?_
        htid (fun _ => hidle) hidle.valid
      rw [← htid]
      rfl
  | ret htop hend =>
      rename_i t' fr
      obtain rfl : t' = t := hev
      refine validated_of_idle hinv ?_ h.rest_idle
      exact fun fr hfr => h.tids fr (List.mem_of_mem_eraseP hfr)
  | op hout hout' =>
      rename_i t' o
      obtain rfl : t' = t := hev
      have hframes := outsideStep_frames hout'
      refine validated_of_idle hinv ?_ ?_
      · rw [hframes]
        exact h.tids
      · rw [hframes]
        exact h.idle_of_outside hout

theorem validated_initial (t : ℕ) : Validated t .initial :=
  validated_of_idle inv_initial (by simp [Machine.initial]) (by simp [Machine.initial])

/-! ## Which reports are lost -/

/-- A provably safe access is not reported. -/
theorem Machine.Inv.safe_good (h : m.Inv) {x : Access} (hfr : x.frame ∈ m.frames)
    (hsafe : provablySafeAlloca x.frame.fn.strip x.ptr x.size = true)
    (haddr : x.frame.addr x.ptr = some x.addr) : x.bad m.rt = false := by
  obtain ⟨hend, hclear⟩ := h.safe_clear hfr hsafe haddr
  rw [Bool.eq_false_iff]
  intro hbad
  obtain ⟨hsize, hends⟩ := bad_iff.mp hbad
  have hlast : x.last = x.addr + x.size - 1 := by
    unfold Access.last
    rw [Nat.mod_eq_of_lt (by omega)]
  rcases hends with hfirst | hfirst
  · rw [hclear x.addr le_rfl (by omega)] at hfirst
    simp at hfirst
  · rw [hlast, hclear _ (by omega) (by omega)] at hfirst
    simp at hfirst

/-- An access that repeats an earlier check is reported exactly if it is not harmless. -/
theorem Machine.Inv.repeat_good_iff (h : m.Inv) {x : Access} (hfr : x.frame ∈ m.frames)
    (hvalid : x.frame.Valid m.world.objs) (haddr : x.frame.addr x.ptr = some x.addr) {c i : ℕ}
    (hchecked : checkedAt x.frame.fn.strip x.frame.insts x.frame.pc x.ptr = some (c, i))
    (hle : x.size ≤ c) : x.bad m.rt = false ↔ (x.size ≠ 0 → x.Harmless m.world.objs c i) := by
  obtain ⟨a, ha, hclear⟩ := hvalid x.ptr c i hchecked
  obtain rfl := Option.some.inj (haddr.symm.trans ha)
  constructor
  · intro hgood hsize
    have hends : ¬ (bytePoisoned m.rt.shadow x.addr = true ∨
        bytePoisoned m.rt.shadow x.last = true) := by
      intro hbad
      rw [bad_iff.mpr ⟨hsize, hbad⟩] at hgood
      simp at hgood
    have hnone : ∀ o ∈ m.world.objs, ¬ GuardByte o x.addr ∧ ¬ GuardByte o x.last := fun o ho =>
      ⟨fun hg => hends (Or.inl (h.poisoned ho hg)), fun hg => hends (Or.inr (h.poisoned ho hg))⟩
    refine ⟨fun _ o ho => (hnone o ho).2, ?_⟩
    rintro v ⟨j, -, -, s, hs, -, hv⟩
    refine hnone v.obj (World.mem_objs.mpr (Or.inr (Or.inl ⟨v, ?_, rfl⟩)))
    exact List.mem_flatMap.mpr ⟨x.frame, hfr, List.mem_filterMap.mpr ⟨s, hs, hv⟩⟩
  · intro hharmless
    rw [Bool.eq_false_iff]
    intro hbad
    obtain ⟨hsize, hends⟩ := bad_iff.mp hbad
    obtain ⟨hend, hentered⟩ := hharmless hsize
    have hno : ∀ o ∈ m.world.objs, ¬ GuardByte o x.addr ∧ ¬ GuardByte o x.last := by
      intro o ho
      rcases hclear o ho with ⟨v, hv, rfl⟩ | ⟨hfirst, hlast⟩
      · exact hentered v hv
      · refine ⟨hfirst, fun hg => ?_⟩
        rcases Nat.lt_or_ge x.size c with hlt | hge
        · exact hend hlt o ho hg
        · obtain rfl : c = x.size := le_antisymm hge hle
          exact hlast hg
    rcases hends with hpoisoned | hpoisoned
    · obtain ⟨hlim, o, ho, hg⟩ := (h.painted.bytePoisoned_iff _).mp hpoisoned
      exact (hno o ho).1 ⟨hlim, hg⟩
    · obtain ⟨hlim, o, ho, hg⟩ := (h.painted.bytePoisoned_iff _).mp hpoisoned
      exact (hno o ho).2 ⟨hlim, hg⟩

/-- A reported access is kept exactly if the check it repeats, if any, is harmless. -/
theorem Validated.kept_iff (h : Validated t m) :
    (reports m ev = true → keptReports m ev = true) ↔ RepeatsHarmless m ev := by
  unfold reports keptReports RepeatsHarmless
  cases hx : m.access ev with
  | none => simp
  | some x =>
      obtain ⟨t', value, I, rfl, htop, hwait, hI, haccess, haddr⟩ := access_eq_some hx
      have hfr := List.mem_of_find?_eq_some htop
      obtain rfl : t = t' := (h.tids _ hfr).symm.trans (m.top_tid htop)
      have hvalid := h.valid _ htop
      have hskip := skipped_iff hI haccess
      simp only [Option.any_some, Option.mem_some_iff, forall_eq', Bool.and_eq_true,
        Bool.not_eq_true']
      constructor
      · rintro hkept ⟨c, i⟩ hcover
        obtain ⟨hchecked, hle⟩ := covering_eq_some hI haccess hcover
        refine (h.inv.repeat_good_iff hfr hvalid haddr hchecked hle).mp ?_
        rw [Bool.eq_false_iff]
        intro hbad
        have hnot := (hkept hbad).2
        rw [hskip.mpr (Or.inr ⟨_, hcover⟩)] at hnot
        simp at hnot
      · intro hharmless hbad
        refine ⟨hbad, Bool.eq_false_iff.mpr fun hskipped => ?_⟩
        rcases hskip.mp hskipped with hsafe | ⟨⟨c, i⟩, hcover⟩
        · rw [h.inv.safe_good hfr hsafe haddr] at hbad
          simp at hbad
        · obtain ⟨hchecked, hle⟩ := covering_eq_some hI haccess hcover
          have hgood := (h.inv.repeat_good_iff hfr hvalid haddr hchecked hle).mpr
            (hharmless (c, i) hcover)
          rw [hgood] at hbad
          simp at hbad

end Validated

/-- In every run of one thread whose frames are left by return: the kept checks lose nothing
exactly if every access that repeats an earlier check, up to the first report, is
harmless. -/
theorem nothingLost_iff {t : ℕ} {evs : List Event} (hevs : ∀ ev ∈ evs, ev.Returning t) :
    NothingLost .initial evs ↔
      EveryStep (monitored mstep reports) RepeatsHarmless .initial evs := by
  have hsub : ∀ m ev, keptReports m ev = true → reports m ev = true := by
    intro m ev h
    unfold keptReports at h
    unfold reports
    cases hx : m.access ev with
    | none => simp [hx] at h
    | some x =>
        simp only [hx, Option.any_some, Bool.and_eq_true] at h ⊢
        exact h.1
  have hreturning : EveryStep (monitored mstep reports) (fun _ ev => ev.Returning t) .initial evs :=
    everyStep_of_forall fun ev hev _ => hevs ev hev
  have hkeep : ∀ m ev m', Validated t m → ev.Returning t →
      monitored mstep reports m ev = some m' → Validated t m' := by
    intro m ev m' h hev hstep
    obtain ⟨hquiet, hstep⟩ := monitored_eq_some.mp hstep
    exact h.mstep hev hquiet hstep
  unfold NothingLost
  rw [firstFlag_le_iff hsub]
  constructor
  · intro h
    refine (h.and hreturning).of_invariant (I := Validated t) (validated_initial t) ?_ ?_
    · exact fun m ev m' hm hq hstep => hkeep m ev m' hm hq.2 hstep
    · exact fun m ev hm hq => hm.kept_iff.mp hq.1
  · intro h
    refine (h.and hreturning).of_invariant (I := Validated t) (validated_initial t) ?_ ?_
    · exact fun m ev m' hm hq hstep => hkeep m ev m' hm hq.2 hstep
    · exact fun m ev hm hq => hm.kept_iff.mpr hq.1

/-- A function that loads twice from its argument. -/
def loadTwice (first second : ℕ) : Function :=
  ⟨[⟨[.load 1 0 (.fixed first), .load 2 0 (.fixed second)], .ret⟩], fun v => (.value v, 0), by
    simp [Clobbers, Inst.pointer, Inst.defines]⟩

/-- The function is called for the user pointer of a block of 8 bytes, which another block
follows. -/
def loadTwiceRun (first second : ℕ) : List Event :=
  [.op 0 (.heap (.malloc 8 none 0 ⟨some 0x1000, true⟩)),
    .op 0 (.heap (.malloc 40 none 0 ⟨some 0x1030, true⟩)),
    .enter 0 (loadTwice first second) [(0, 0x1010)], .step 0 5, .step 0 5, .ret 0]

theorem returning_loadTwiceRun (first second : ℕ) :
    ∀ ev ∈ loadTwiceRun first second, ev.Returning 0 := by
  simp [loadTwiceRun, Event.Returning]

theorem nothingLost_iff_loadTwiceRun : NothingLost .initial (loadTwiceRun 8 8) ↔
    EveryStep (monitored mstep reports) RepeatsHarmless .initial (loadTwiceRun 8 8) :=
  nothingLost_iff (returning_loadTwiceRun 8 8)

/-- The check of 64 bytes ends in the other block; the 16 bytes that are read next end in
the red zone between the blocks, and are not checked. -/
theorem lost_loadTwiceRun : (∀ ev ∈ loadTwiceRun 64 16, ev.Returning 0) ∧
    firstFlag mstep reports .initial (loadTwiceRun 64 16) = some 4 ∧
    ¬ NothingLost .initial (loadTwiceRun 64 16) := by
  have hfull : firstFlag mstep reports .initial (loadTwiceRun 64 16) = some 4 := by
    decide +kernel
  have hkept : firstFlag mstep keptReports .initial (loadTwiceRun 64 16) = none := by
    decide +kernel
  refine ⟨returning_loadTwiceRun 64 16, hfull, fun h => ?_⟩
  obtain ⟨j, -, hj⟩ := h 4 hfull
  simp [hkept] at hj

end Redzone.Stack
