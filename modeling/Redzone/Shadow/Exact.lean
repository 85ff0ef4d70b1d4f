/-
  Shadow/Exact.lean --- the shadow is exact in every reachable state.

  Each step of the process adds an object, removes one, kills one or leaves the shadow
  alone; the rules of `Guarded` carry the invariant through.  Read back, it says that a
  byte is poisoned exactly if it belongs to an object and is no user byte.
-/
import Redzone.Shadow.World

set_option autoImplicit false

namespace Redzone.Shadow

open Redzone.Foundation

/-! ## Effects on the objects -/

/-- The slack of an alignment. -/
def slackOf (align : ℕ) : ℕ := if align > redzoneSize then align else 0

/-- Where `rz_allocate` puts the user region in an extent that does not wrap. -/
structure Placed (base total size align user : ℕ) : Prop where
  aligned : align ∣ user
  left : base + redzoneSize ≤ user
  right : user + size + redzoneSize ≤ base + total
  /-- The sum that is rounded down to the user address. -/
  fits : base + redzoneSize + (align - 1) < wordSize

theorem placed {base size align k : ℕ} (hk : align = 2 ^ k) (hle : redzoneSize ≤ align)
    (hbase : base % 16 = 0) (htop : base + (size + 2 * redzoneSize + slackOf align) ≤ wordSize) :
    Placed base (size + 2 * redzoneSize + slackOf align) size align
      (clearLow ((base + redzoneSize + (align - 1)) % wordSize) align) := by
  subst hk
  simp only [redzoneSize, wordSize] at hle htop ⊢
  -- without slack the alignment is 16, and the base has it
  have hslack : slackOf (2 ^ k) = 2 ^ k ∨ slackOf (2 ^ k) = 0 ∧ 2 ^ k = 16 := by
    unfold slackOf
    simp only [redzoneSize]
    split
    · exact Or.inl rfl
    · exact Or.inr ⟨rfl, by omega⟩
  have hsum : base + 16 + (2 ^ k - 1) < 2 ^ 64 := by omega
  have hk64 : k ≤ 64 := (Nat.pow_le_pow_iff_right (by omega : 1 < 2)).mp (by omega)
  have hround : clearLow ((base + 16 + (2 ^ k - 1)) % 2 ^ 64) (2 ^ k) =
      (base + 16 + (2 ^ k - 1)) / 2 ^ k * 2 ^ k := by
    rw [Nat.mod_eq_of_lt hsum, clearLow_two_pow hsum hk64]
  -- the division with remainder behind the rounding
  have hdiv := Nat.div_add_mod (base + 16 + (2 ^ k - 1)) (2 ^ k)
  have hmod := Nat.mod_lt (base + 16 + (2 ^ k - 1)) (Nat.two_pow_pos k)
  have hrem : 2 ^ k = 16 → (base + 16 + (2 ^ k - 1)) % 2 ^ k = 15 := by
    intro h16
    rw [h16]
    omega
  rw [Nat.mul_comm, ← hround] at hdiv
  refine ⟨hround ▸ Nat.dvd_mul_left .., ?_, ?_, hsum⟩
  · simp only [redzoneSize]
    omega
  · simp only [redzoneSize]
    rcases hslack with hslack | ⟨hslack, h16⟩
    · omega
    · have hfifteen := hrem h16
      omega

section Effects

variable {s s' : Rt} {b : Block} {align i : ℕ} {objs : List Obj}

theorem AllocEffect.placed (h : AllocEffect s s' b align) (hbase : b.realBase % 16 = 0)
    (htop : b.realBase + b.totalSize ≤ wordSize) :
    Placed b.realBase b.totalSize b.userSize align b.userAddr := by
  obtain ⟨k, hk⟩ := h.pow2
  have htotal : b.totalSize = b.userSize + 2 * redzoneSize + slackOf align := h.total
  rw [htotal] at htop ⊢
  rw [h.user]
  exact Shadow.placed hk h.le_align hbase htop

/-- The user region of a block in an extent that does not wrap. -/
theorem AllocEffect.layout (h : AllocEffect s s' b align) (hbase : b.realBase % 16 = 0)
    (htop : b.realBase + b.totalSize ≤ wordSize) :
    b.realBase + redzoneSize ≤ b.userAddr ∧ b.userAddr % 16 = 0 ∧
      b.userAddr + b.userSize + redzoneSize ≤ b.realBase + b.totalSize := by
  have hplaced := h.placed hbase htop
  obtain ⟨k, hk⟩ := h.pow2
  have hle : 2 ^ 4 ≤ 2 ^ k := hk ▸ h.le_align
  have h16 : 2 ^ 4 ∣ align := hk ▸ Nat.pow_dvd_pow 2 ((Nat.pow_le_pow_iff_right (by omega)).mp hle)
  exact ⟨hplaced.left, Nat.mod_eq_zero_of_dvd (h16.trans hplaced.aligned), hplaced.right⟩

theorem AllocEffect.obj_ok (h : AllocEffect s s' b align) (hbase : b.realBase % 16 = 0)
    (htop : b.realBase + b.totalSize ≤ shadowLimit) : b.obj.OK := by
  simp only [shadowLimit] at htop
  obtain ⟨hleft, huser, hguard⟩ := h.layout hbase (by simp only [wordSize]; omega)
  simp only [redzoneSize] at hleft hguard
  refine ⟨hbase, ?_, Or.inr hleft, ?_, ?_, hguard, htop⟩ <;> simp only [Block.obj] <;> omega

theorem AllocEffect.guarded (h : AllocEffect s s' b align) (hg : Guarded s.shadow objs)
    (hbase : b.realBase % 16 = 0) (htop : b.realBase + b.totalSize ≤ shadowLimit)
    (hfresh : ∀ o ∈ objs, b.realBase + b.totalSize ≤ o.lo ∨ o.top ≤ b.realBase) :
    Guarded s'.shadow (b.obj :: objs) := by
  have hok := h.obj_ok hbase htop
  refine hg.insert hok (by simp [Block.obj, h.live]) hfresh fun x => ?_
  have hle := hok.lo_le
  have hguard := hok.guard
  simp only [Block.obj, redzoneSize] at hle hguard
  have hguarded := bytePoisoned_guard s.shadow b.realBase b.userAddr b.userSize
    (b.realBase + b.totalSize) rzPoison x (by omega) hle hok.user_aligned (by omega) htop
    (by decide)
  rw [Nat.add_sub_cancel_left] at hguarded
  rw [h.shadow, hguarded]
  rfl

/-- A free poisons the user chunks of the block. -/
theorem FreeEffect.bytePoisoned_eq (h : FreeEffect s s' i b) (hok : b.obj.OK) (x : ℕ) :
    bytePoisoned s'.shadow x =
      if b.userAddr ≤ x ∧ x < roundUp8 (b.userAddr + b.userSize) then true
      else bytePoisoned s.shadow x := by
  have hguard := hok.guard
  have htop := hok.top_le
  have hal := hok.user_aligned
  simp only [Block.obj, redzoneSize, shadowLimit] at hguard htop hal
  have hsum : b.userSize + 7 < wordSize := by
    simp only [wordSize]
    omega
  have hround : roundUp8 (b.userAddr + b.userSize) = b.userAddr + roundUp8 b.userSize := by
    simp only [roundUp8]
    omega
  have hmul : roundUp8 b.userSize % 8 = 0 := Nat.mul_mod_left _ _
  have hle : roundUp8 b.userSize ≤ b.userSize + 7 := Nat.div_mul_le_self ..
  have hlen : (b.userSize + 7) / 8 * 8 = roundUp8 b.userSize := rfl
  rw [h.shadow, Nat.mod_eq_of_lt hsum, clearLow_eight hsum, hlen, hround]
  rcases Nat.eq_zero_or_pos (roundUp8 b.userSize) with hzero | hpos
  · rw [hzero, setShadowRange_zero_len, if_neg (by omega)]
  · rw [bytePoisoned_setShadowRange_neg hpos (by simp only [shadowLimit]; omega) (by decide)]
    refine if_congr ?_ rfl rfl
    omega

theorem FreeEffect.guarded (h : FreeEffect s s' i b) (hg : Guarded s.shadow (b.obj :: objs)) :
    Guarded s'.shadow (Block.obj { b with freed := true } :: objs) :=
  hg.kill fun x => h.bytePoisoned_eq (hg.ok _ (List.mem_cons_self ..)) x

/-- The blocks of a table without block `i`. -/
theorem FreeEffect.perm (h : FreeEffect s s' i b) :
    ∃ rest, s.blocks.Perm (b :: rest) ∧ s'.blocks.Perm ({ b with freed := true } :: rest) := by
  obtain ⟨hi, hb⟩ := List.getElem?_eq_some_iff.mp h.found
  refine ⟨s.blocks.take i ++ s.blocks.drop (i + 1), ?_, ?_⟩
  · have hsplit : s.blocks = s.blocks.take i ++ b :: s.blocks.drop (i + 1) := by
      rw [← hb, List.cons_getElem_drop_succ, List.take_append_drop]
    conv_lhs => rw [hsplit]
    exact List.perm_middle
  · rw [h.blocks, List.set_eq_take_append_cons_drop, if_pos hi]
    exact List.perm_middle

end Effects

/-! ## The invariant -/

/-- The shadow of the world poisons what its objects guard. -/
def World.Inv (w : World) : Prop := Guarded w.rt.shadow w.objs

section Inv

variable {w w' : World} {rt : Rt}

theorem inv_initial : World.initial.Inv := guarded_nil

/-- The objects besides the heap blocks. -/
def World.others (w : World) : List Obj :=
  w.stack.map StackVar.obj ++
    (w.internals.map GlobalVar.internalObj ++ w.externals.map GlobalVar.externalObj)

theorem World.objs_eq (w : World) : w.objs = w.rt.blocks.map Block.obj ++ w.others := rfl

theorem World.Inv.alloc (h : w.Inv) {b : Block} {align : ℕ} (heff : AllocEffect w.rt rt b align)
    (hfresh : w.Fresh b.realBase (b.realBase + b.totalSize)) :
    World.Inv { w with rt := rt } := by
  have hg := heff.guarded h hfresh.1 hfresh.2.1 fun o ho => (hfresh.2.2 o ho)
  refine hg.perm ?_
  rw [World.objs_eq, World.objs_eq, heff.blocks, List.map_append, List.append_assoc]
  exact List.perm_middle.symm

theorem World.Inv.free (h : w.Inv) {b : Block} {i : ℕ} (heff : FreeEffect w.rt rt i b) :
    World.Inv { w with rt := rt } := by
  obtain ⟨rest, hbefore, hafter⟩ := heff.perm
  have hg : Guarded w.rt.shadow (b.obj :: (rest.map Block.obj ++ w.others)) :=
    Guarded.perm h ((hbefore.map Block.obj).append_right _)
  exact (heff.guarded hg).perm ((hafter.map Block.obj).append_right _).symm

/-- The blocks that an allocation followed by a free records are those it allocates. -/
theorem AllocEffect.fresh_of_free {s s₁ s' : Rt} {b b' : Block} {align i : ℕ}
    (halloc : AllocEffect s s₁ b align) (hfree : FreeEffect s₁ s' i b') :
    ∃ b'' ∈ s'.blocks.drop s.blocks.length,
      b''.realBase = b.realBase ∧ b''.totalSize = b.totalSize := by
  have hlast : s₁.blocks[s.blocks.length]? = some b := by simp [halloc.blocks]
  have hlen : s₁.blocks.length = s.blocks.length + 1 := by simp [halloc.blocks]
  have hmem : ∀ b'', s'.blocks[s.blocks.length]? = some b'' →
      b'' ∈ s'.blocks.drop s.blocks.length := by
    intro b'' hb''
    refine List.mem_of_getElem? (i := 0) ?_
    rw [List.getElem?_drop, Nat.add_zero, hb'']
  by_cases hi : i = s.blocks.length
  · subst hi
    obtain rfl : b' = b := Option.some.inj (hfree.found.symm.trans hlast)
    refine ⟨{ b' with freed := true }, hmem _ ?_, rfl, rfl⟩
    rw [hfree.blocks, List.getElem?_set_self (by omega)]
  · refine ⟨b, hmem _ ?_, rfl, rfl⟩
    rw [hfree.blocks, List.getElem?_set_ne hi, hlast]

/-- Where a call stores a pointer for the program. -/
def HeapCall.out : HeapCall → List ℕ
  | .posixMemalign memptr _ _ _ _ _ => pointerAt memptr
  | _ => []

/-- What a heap call does, for any call. -/
theorem heapCall_ok {s s' : Rt} {c : HeapCall} (h : s.heapCall c = .ok s') :
    s' = s ∨ (∃ b align, Allocated s s' b align c.out) ∨ (∃ i b, Freed s s' i b) ∨
      ∃ s₁ b align i b', Allocated s s₁ b align [] ∧ Freed s₁ s' i b' := by
  have hmap : ∀ {α : Type} {e : Except Abort (α × Rt)}, e.map Prod.snd = .ok s' →
      ∃ r, e = .ok (r, s') := by
    intro α e he
    cases e with
    | error a => simp [Except.map] at he
    | ok p =>
        obtain rfl := Except.ok.inj he
        exact ⟨p.1, rfl⟩
  cases c with
  | malloc size file line sys =>
      obtain ⟨r, hr⟩ := hmap h
      rcases redzoneMalloc_ok hr with ⟨-, rfl⟩ | ⟨b, -, -, hb⟩
      · exact Or.inl rfl
      · exact Or.inr (Or.inl ⟨b, _, hb⟩)
  | alignedAlloc alignment size file line sys =>
      obtain ⟨r, hr⟩ := hmap h
      rcases redzoneAlignedAlloc_ok hr with ⟨-, rfl⟩ | ⟨b, align, -, hb⟩
      · exact Or.inl rfl
      · exact Or.inr (Or.inl ⟨b, align, hb⟩)
  | posixMemalign memptr alignment size file line sys =>
      obtain ⟨r, hr⟩ := hmap h
      rcases redzonePosixMemalign_ok hr with ⟨-, rfl⟩ | ⟨-, b, align, hb⟩
      · exact Or.inl rfl
      · exact Or.inr (Or.inl ⟨b, align, hb⟩)
  | calloc nmemb size file line sys =>
      obtain ⟨r, hr⟩ := hmap h
      rcases redzoneCalloc_ok hr with ⟨-, rfl⟩ | ⟨b, -, hb⟩
      · exact Or.inl rfl
      · exact Or.inr (Or.inl ⟨b, _, hb⟩)
  | realloc ptr size file line sys =>
      obtain ⟨r, hr⟩ := hmap h
      rcases redzoneRealloc_ok hr with rfl | ⟨b, hb⟩ | ⟨i, b, hb⟩ | ⟨s₁, b, i, b', ha, hf⟩
      · exact Or.inl rfl
      · exact Or.inr (Or.inl ⟨b, _, hb⟩)
      · exact Or.inr (Or.inr (Or.inl ⟨i, b, hb⟩))
      · exact Or.inr (Or.inr (Or.inr ⟨s₁, b, _, i, b', ha, hf⟩))
  | free ptr =>
      rcases redzoneFree_ok h with rfl | ⟨i, b, -, hb⟩
      · exact Or.inl rfl
      · exact Or.inr (Or.inr (Or.inl ⟨i, b, hb⟩))

theorem World.Inv.heap (h : w.Inv) {c : HeapCall} (hcall : w.rt.heapCall c = .ok rt)
    (hfresh : ∀ b ∈ rt.blocks.drop w.rt.blocks.length,
      w.Fresh b.realBase (b.realBase + b.totalSize)) : World.Inv { w with rt := rt } := by
  rcases heapCall_ok hcall with rfl | ⟨b, align, heff, -⟩ | ⟨i, b, heff, -⟩ |
    ⟨s₁, b, align, i, b', ⟨ha, -⟩, hf, -⟩
  · exact h
  · refine h.alloc heff (hfresh b ?_)
    simp [heff.blocks]
  · exact h.free heff
  · obtain ⟨b'', hmem, hbase, htotal⟩ := ha.fresh_of_free hf
    have hb := hfresh b'' hmem
    rw [hbase, htotal] at hb
    exact World.Inv.free (w := { w with rt := s₁ }) (h.alloc ha hb) hf

theorem World.Inv.stackEnter (h : w.Inv) {v : StackVar}
    (hfresh : w.Fresh v.base (v.base + v.size + 2 * redzoneSize)) :
    World.Inv { w with rt := redzoneStackEnter w.rt v.base v.size, stack := v :: w.stack } := by
  obtain ⟨hal, htop, hdisj⟩ := hfresh
  have hok : v.obj.OK := by
    refine ⟨hal, ?_, ?_, ?_, ?_, ?_, htop⟩ <;> simp only [StackVar.obj, redzoneSize] <;> omega
  simp only [redzoneSize, shadowLimit] at htop
  have huser : (v.base + redzoneSize) % wordSize = v.base + redzoneSize :=
    Nat.mod_eq_of_lt (by simp only [redzoneSize, wordSize]; omega)
  have htotal : (v.size + 2 * redzoneSize) % wordSize = v.size + 2 * redzoneSize :=
    Nat.mod_eq_of_lt (by simp only [redzoneSize, wordSize]; omega)
  have hins : Guarded (redzoneStackEnter w.rt v.base v.size).shadow (v.obj :: w.objs) := by
    refine Guarded.insert h hok rfl hdisj fun x => ?_
    have hguarded := bytePoisoned_guard w.rt.shadow v.base (v.base + redzoneSize) v.size
      (v.base + v.size + 2 * redzoneSize) stackRz x (by omega) (by omega)
      (by simp only [redzoneSize]; omega) (by simp only [redzoneSize]; omega)
      (by simp only [redzoneSize, shadowLimit]; omega) (by decide)
    rw [Nat.add_assoc, Nat.add_sub_cancel_left] at hguarded
    simp only [redzoneStackEnter, huser, htotal]
    rw [hguarded, ← Nat.add_assoc]
    rfl
  refine hins.perm ?_
  simp only [World.objs, List.map_cons]
  exact List.perm_middle.symm

theorem World.Inv.stackLeave (h : w.Inv) {v : StackVar} (hv : v ∈ w.stack) :
    World.Inv { w with rt := redzoneStackLeave w.rt v.base v.size, stack := w.stack.erase v } := by
  have hperm : w.objs.Perm (v.obj ::
      World.objs { w with rt := redzoneStackLeave w.rt v.base v.size, stack := w.stack.erase v }) := by
    have hstack := (List.perm_cons_erase hv).map StackVar.obj
    refine ((hstack.append_right _).append_left _).trans ?_
    exact List.perm_middle
  have hg := Guarded.perm h hperm
  have hok := hg.ok _ (List.mem_cons_self ..)
  have hal := hok.lo_aligned
  have htop := hok.top_le
  simp only [StackVar.obj, redzoneSize, shadowLimit] at hal htop
  have htotal : (v.size + 2 * redzoneSize) % wordSize = v.size + 2 * redzoneSize :=
    Nat.mod_eq_of_lt (by simp only [redzoneSize, wordSize]; omega)
  refine hg.remove fun x => ?_
  simp only [redzoneStackLeave, htotal, StackVar.obj, roundUp8]
  rw [bytePoisoned_setShadowRange_zero (by simp only [redzoneSize]; omega)
    (by simp only [redzoneSize, shadowLimit]; omega)]
  refine if_congr ?_ rfl rfl
  simp only [redzoneSize]
  omega

theorem World.Inv.globalRegister (h : w.Inv) {g : GlobalVar} (hdata : redzoneSize ≤ g.data)
    (hfresh : w.Fresh (g.data - redzoneSize) (g.data + g.size + redzoneSize)) :
    World.Inv { w with
      rt := redzoneGlobalRegister w.rt g.data g.size, internals := g :: w.internals } := by
  obtain ⟨hal, htop, hdisj⟩ := hfresh
  simp only [redzoneSize] at hal hdata
  have hok : g.internalObj.OK := by
    refine ⟨hal, ?_, ?_, ?_, ?_, ?_, htop⟩ <;>
      simp only [GlobalVar.internalObj, redzoneSize] <;> omega
  simp only [redzoneSize, shadowLimit] at htop
  have hbase : (g.data + wordSize - redzoneSize) % wordSize = g.data - redzoneSize := by
    simp only [redzoneSize, wordSize]
    omega
  have htotal : (g.size + 2 * redzoneSize) % wordSize = g.size + 2 * redzoneSize :=
    Nat.mod_eq_of_lt (by simp only [redzoneSize, wordSize]; omega)
  have hins : Guarded (redzoneGlobalRegister w.rt g.data g.size).shadow
      (g.internalObj :: w.objs) := by
    refine Guarded.insert h hok rfl hdisj fun x => ?_
    have hguarded := bytePoisoned_guard w.rt.shadow (g.data - redzoneSize) g.data g.size
      (g.data + g.size + redzoneSize) globalRz x (by simp only [redzoneSize]; omega) (by omega)
      (by omega) (by simp only [redzoneSize]; omega)
      (by simp only [redzoneSize, shadowLimit]; omega) (by decide)
    have hlen : g.data + g.size + redzoneSize - (g.data - redzoneSize) =
        g.size + 2 * redzoneSize := by
      simp only [redzoneSize]
      omega
    rw [hlen] at hguarded
    simp only [redzoneGlobalRegister, hbase, htotal]
    rw [hguarded]
    rfl
  refine hins.perm ?_
  simp only [World.objs, List.map_cons, List.cons_append]
  exact (List.perm_middle.symm.trans (List.perm_middle.append_left _).symm)

theorem World.Inv.globalRegisterRight (h : w.Inv) {g : GlobalVar}
    (hfresh : w.Fresh g.data (g.data + g.size + redzoneSize)) :
    World.Inv { w with
      rt := redzoneGlobalRegisterRight w.rt g.data g.size, externals := g :: w.externals } := by
  obtain ⟨hal, htop, hdisj⟩ := hfresh
  have hok : g.externalObj.OK := by
    refine ⟨hal, le_rfl, Or.inl rfl, ?_, ?_, ?_, htop⟩ <;>
      simp only [GlobalVar.externalObj, redzoneSize] <;> omega
  have hend : (g.data + g.size) % wordSize = g.data + g.size := by
    simp only [redzoneSize, shadowLimit] at htop
    exact Nat.mod_eq_of_lt (by simp only [wordSize]; omega)
  have hins : Guarded (redzoneGlobalRegisterRight w.rt g.data g.size).shadow
      (g.externalObj :: w.objs) := by
    refine Guarded.insert h hok rfl hdisj fun x => ?_
    simp only [redzoneGlobalRegisterRight, hend]
    rw [bytePoisoned_guard_right (by omega) (by decide) htop (by decide)]
    rfl
  refine hins.perm ?_
  simp only [World.objs, List.map_cons, ← List.append_assoc]
  exact List.perm_middle.symm

/-- Every step keeps the invariant. -/
theorem World.Inv.step (h : w.Inv) {op : Op} (hstep : w.step op = some w') : w'.Inv := by
  cases op with
  | heap c =>
      simp only [World.step] at hstep
      split at hstep
      · simp at hstep
      · rename_i rt hcall
        split at hstep
        · rename_i hfresh
          obtain rfl := Option.some.inj hstep
          exact h.heap hcall hfresh
        · simp at hstep
  | stackEnter v =>
      simp only [World.step] at hstep
      split at hstep
      · rename_i hfresh
        obtain rfl := Option.some.inj hstep
        exact h.stackEnter hfresh
      · simp at hstep
  | stackLeave v =>
      simp only [World.step] at hstep
      split at hstep
      · rename_i hv
        obtain rfl := Option.some.inj hstep
        exact h.stackLeave hv
      · simp at hstep
  | globalRegister g =>
      simp only [World.step] at hstep
      split at hstep
      · rename_i hfresh
        obtain rfl := Option.some.inj hstep
        exact h.globalRegister hfresh.1 hfresh.2
      · simp at hstep
  | globalRegisterRight g =>
      simp only [World.step] at hstep
      split at hstep
      · rename_i hfresh
        obtain rfl := Option.some.inj hstep
        exact h.globalRegisterRight hfresh
      · simp at hstep
  | store addr byte =>
      obtain rfl := Option.some.inj hstep
      exact h

/-- The invariant holds after every run. -/
theorem World.inv_of_run {ops : List Op} (h : worldRun ops = some w) : w.Inv :=
  run_invariant inv_initial (fun _ _ _ hinv hstep => World.Inv.step hinv hstep) ops h

end Inv

/-! ## Exactness -/

/-- The byte is in the extent, rounded up to 8 bytes, of a recorded heap block, an
active stack variable or a registered internal global. -/
def World.Tracked (w : World) (x : ℕ) : Prop :=
  (∃ b ∈ w.rt.blocks, b.realBase ≤ x ∧ x < roundUp8 (b.realBase + b.totalSize)) ∨
  (∃ v ∈ w.stack, v.base ≤ x ∧ x < roundUp8 (v.base + v.size + 2 * redzoneSize)) ∨
  ∃ g ∈ w.internals, g.data - redzoneSize ≤ x ∧ x < roundUp8 (g.data + g.size + redzoneSize)

/-- The byte is a user byte of a live heap block, an active stack variable or a
registered global. -/
def World.UserByte (w : World) (x : ℕ) : Prop :=
  (∃ b ∈ w.rt.blocks, b.freed = false ∧ b.userAddr ≤ x ∧ x < b.userAddr + b.userSize) ∨
  (∃ v ∈ w.stack, v.base + redzoneSize ≤ x ∧ x < v.base + redzoneSize + v.size) ∨
  (∃ g ∈ w.internals, g.data ≤ x ∧ x < g.data + g.size) ∨
  ∃ g ∈ w.externals, g.data ≤ x ∧ x < g.data + g.size

/-- The byte is in the trailing guard of a registered external global. -/
def World.ExternalGuard (w : World) (x : ℕ) : Prop :=
  ∃ g ∈ w.externals, g.data + g.size ≤ x ∧ x < roundUp8 (g.data + g.size + redzoneSize)

section Exact

variable {w w' : World} {x : ℕ}

theorem World.mem_objs {o : Obj} : o ∈ w.objs ↔
    (∃ b ∈ w.rt.blocks, b.obj = o) ∨ (∃ v ∈ w.stack, v.obj = o) ∨
      (∃ g ∈ w.internals, g.internalObj = o) ∨ ∃ g ∈ w.externals, g.externalObj = o := by
  simp only [World.objs, List.mem_append, List.mem_map]

theorem World.userByte_iff : w.UserByte x ↔ ∃ o ∈ w.objs, o.region.User x := by
  constructor
  · rintro (⟨b, hb, hlive, hx⟩ | ⟨v, hv, hx⟩ | ⟨g, hg, hx⟩ | ⟨g, hg, hx⟩)
    · exact ⟨b.obj, World.mem_objs.mpr (Or.inl ⟨b, hb, rfl⟩),
        by simp [Block.obj, Obj.region, hlive], hx⟩
    · exact ⟨v.obj, World.mem_objs.mpr (Or.inr (Or.inl ⟨v, hv, rfl⟩)), rfl, hx⟩
    · exact ⟨g.internalObj, World.mem_objs.mpr (Or.inr (Or.inr (Or.inl ⟨g, hg, rfl⟩))), rfl, hx⟩
    · exact ⟨g.externalObj, World.mem_objs.mpr (Or.inr (Or.inr (Or.inr ⟨g, hg, rfl⟩))), rfl, hx⟩
  · rintro ⟨o, ho, hlive, hx⟩
    rcases World.mem_objs.mp ho with ⟨b, hb, rfl⟩ | ⟨v, hv, rfl⟩ | ⟨g, hg, rfl⟩ | ⟨g, hg, rfl⟩
    · exact Or.inl ⟨b, hb, by simpa [Block.obj, Obj.region] using hlive, hx⟩
    · exact Or.inr (Or.inl ⟨v, hv, hx⟩)
    · exact Or.inr (Or.inr (Or.inl ⟨g, hg, hx⟩))
    · exact Or.inr (Or.inr (Or.inr ⟨g, hg, hx⟩))

theorem World.Inv.poisoned_of_mem (h : w.Inv) {o : Obj} (ho : o ∈ w.objs) (hx : o.region.Mem x) :
    bytePoisoned w.rt.shadow x = true ↔ ¬ o.region.User x :=
  h.tiled.bad_of_mem (List.mem_map_of_mem ho) hx

/-- User bytes are addressable. -/
theorem World.Inv.userByte_ok (h : w.Inv) (hx : w.UserByte x) :
    bytePoisoned w.rt.shadow x = false := by
  obtain ⟨o, ho, huser⟩ := World.userByte_iff.mp hx
  have hmem := (h.ok o ho).wf.mem_of_user huser
  have hiff := h.poisoned_of_mem ho hmem
  exact Bool.eq_false_iff.mpr fun hbad => hiff.mp hbad huser

/-- The extents of blocks do not wrap. -/
theorem World.Inv.block_end (h : w.Inv) {b : Block} (hb : b ∈ w.rt.blocks) :
    (b.realBase + b.totalSize) % wordSize = b.realBase + b.totalSize := by
  have htop := (h.ok b.obj (World.mem_objs.mpr (Or.inl ⟨b, hb, rfl⟩))).top_le
  simp only [Block.obj, shadowLimit] at htop
  exact Nat.mod_eq_of_lt (by simp only [wordSize]; omega)

/-- What `find_block` finds. -/
theorem World.Inv.findBlock_some (h : w.Inv) {a : ℕ} {b : Block}
    (hfind : findBlock w.rt a = some b) :
    b ∈ w.rt.blocks ∧ b.realBase ≤ a ∧ a < b.realBase + b.totalSize := by
  have hmem := List.mem_of_find?_eq_some hfind
  have hin := List.find?_some hfind
  rw [Bool.and_eq_true, decide_eq_true_eq, decide_eq_true_eq, h.block_end hmem] at hin
  exact ⟨hmem, hin⟩

/-- `find_block` finds nothing outside the extents. -/
theorem World.Inv.findBlock_none (h : w.Inv) {a : ℕ} (hfind : findBlock w.rt a = none)
    {b : Block} (hb : b ∈ w.rt.blocks) : ¬ (b.realBase ≤ a ∧ a < b.realBase + b.totalSize) := by
  intro hin
  have hnot := List.find?_eq_none.mp hfind b hb
  rw [Bool.and_eq_true, decide_eq_true_eq, decide_eq_true_eq, h.block_end hb] at hnot
  exact hnot hin

/-- A poisoned byte is guarded by an object. -/
theorem World.Inv.poisoned_iff (h : w.Inv) :
    bytePoisoned w.rt.shadow x = true ↔ (w.Tracked x ∧ ¬ w.UserByte x) ∨ w.ExternalGuard x := by
  constructor
  · intro hbad
    have huser : ¬ w.UserByte x := fun hu => by simp [h.userByte_ok hu] at hbad
    obtain ⟨r, hr, hmem, hnot⟩ := (h.tiled.bad_iff x).mp hbad
    obtain ⟨o, ho, rfl⟩ := List.mem_map.mp hr
    rcases World.mem_objs.mp ho with ⟨b, hb, rfl⟩ | ⟨v, hv, rfl⟩ | ⟨g, hg, rfl⟩ | ⟨g, hg, rfl⟩
    · exact Or.inl ⟨Or.inl ⟨b, hb, hmem⟩, huser⟩
    · exact Or.inl ⟨Or.inr (Or.inl ⟨v, hv, hmem⟩), huser⟩
    · exact Or.inl ⟨Or.inr (Or.inr ⟨g, hg, hmem⟩), huser⟩
    · -- an external global has no guard before its data
      have hpast : g.data + g.size ≤ x := by
        by_contra hlt
        exact hnot ⟨rfl, hmem.1, Nat.not_le.mp hlt⟩
      exact Or.inr ⟨g, hg, hpast, hmem.2⟩
  · rintro (⟨htracked, huser⟩ | ⟨g, hg, hpast, hlt⟩)
    · have hex : ∃ o ∈ w.objs, o.region.Mem x := by
        rcases htracked with ⟨b, hb, hx⟩ | ⟨v, hv, hx⟩ | ⟨g, hg, hx⟩
        · exact ⟨b.obj, World.mem_objs.mpr (Or.inl ⟨b, hb, rfl⟩), hx⟩
        · exact ⟨v.obj, World.mem_objs.mpr (Or.inr (Or.inl ⟨v, hv, rfl⟩)), hx⟩
        · exact ⟨g.internalObj, World.mem_objs.mpr (Or.inr (Or.inr (Or.inl ⟨g, hg, rfl⟩))), hx⟩
      obtain ⟨o, ho, hmem⟩ := hex
      exact (h.poisoned_of_mem ho hmem).mpr fun hu => huser (World.userByte_iff.mpr ⟨o, ho, hu⟩)
    · have ho : g.externalObj ∈ w.objs :=
        World.mem_objs.mpr (Or.inr (Or.inr (Or.inr ⟨g, hg, rfl⟩)))
      have hmem : g.externalObj.region.Mem x := ⟨(Nat.le_add_right ..).trans hpast, hlt⟩
      exact (h.poisoned_of_mem ho hmem).mpr fun hu => Nat.not_lt.mpr hpast hu.2.2

/-! ### Freed blocks -/

/-- A heap call keeps the entries of freed blocks. -/
theorem heapCall_keeps {s s' : Rt} {c : HeapCall} (h : s.heapCall c = .ok s') {b : Block}
    (hb : b ∈ s.blocks) (hfreed : b.freed = true) : b ∈ s'.blocks := by
  have halloc : ∀ {s s' : Rt} {b' align}, AllocEffect s s' b' align → b ∈ s.blocks →
      b ∈ s'.blocks := by
    intro s s' b' align heff hmem
    rw [heff.blocks]
    exact List.mem_append_left _ hmem
  have hfree : ∀ {s s' : Rt} {i b'}, FreeEffect s s' i b' → b ∈ s.blocks → b ∈ s'.blocks := by
    intro s s' i b' heff hmem
    obtain ⟨rest, hbefore, hafter⟩ := heff.perm
    rcases List.mem_cons.mp (hbefore.mem_iff.mp hmem) with rfl | hrest
    · simp [heff.live] at hfreed
    · exact hafter.mem_iff.mpr (List.mem_cons_of_mem _ hrest)
  rcases heapCall_ok h with rfl | ⟨b', align, heff, -⟩ | ⟨i, b', heff, -⟩ |
    ⟨s₁, b', align, i, b'', ⟨ha, -⟩, hf, -⟩
  · exact hb
  · exact halloc heff hb
  · exact hfree heff hb
  · exact hfree hf (halloc ha hb)

/-- A step keeps the entries of freed blocks. -/
theorem World.step_keeps {op : Op} (hstep : w.step op = some w') {b : Block}
    (hb : b ∈ w.rt.blocks) (hfreed : b.freed = true) : b ∈ w'.rt.blocks := by
  cases op with
  | heap c =>
      simp only [World.step] at hstep
      split at hstep
      · simp at hstep
      · rename_i rt hcall
        split at hstep
        · obtain rfl := Option.some.inj hstep
          exact heapCall_keeps hcall hb hfreed
        · simp at hstep
  | store addr byte =>
      obtain rfl := Option.some.inj hstep
      exact hb
  | stackEnter v | stackLeave v | globalRegister v | globalRegisterRight v =>
      simp only [World.step] at hstep
      split at hstep
      · obtain rfl := Option.some.inj hstep
        exact hb
      · simp at hstep

/-- A freed block stays in the table, freed. -/
theorem World.run_keeps {ops : List Op} (hrun : run World.step w ops = some w') {b : Block}
    (hb : b ∈ w.rt.blocks) (hfreed : b.freed = true) : b ∈ w'.rt.blocks :=
  run_invariant (I := fun w => b ∈ w.rt.blocks) hb
    (fun _ _ _ hmem hstep => World.step_keeps hstep hmem hfreed) ops hrun

/-- A byte is poisoned exactly if it is in a tracked extent and no user byte, or in the
trailing guard of an external global.  So every user byte is addressable; and the bytes
of a freed block stay poisoned, whatever the process does later. -/
theorem shadow_exact {ops later : List Op} (hw : worldRun ops = some w)
    (hw' : run World.step w later = some w') :
    (∀ x, bytePoisoned w.rt.shadow x = true ↔
      (w.Tracked x ∧ ¬ w.UserByte x) ∨ w.ExternalGuard x) ∧
    (∀ x, w.UserByte x → bytePoisoned w.rt.shadow x = false) ∧
    ∀ b ∈ w.rt.blocks, b.freed = true →
      ∀ x, b.realBase ≤ x → x < roundUp8 (b.realBase + b.totalSize) →
        bytePoisoned w'.rt.shadow x = true := by
  have hinv := World.inv_of_run hw
  refine ⟨fun x => hinv.poisoned_iff, fun x => hinv.userByte_ok, ?_⟩
  intro b hb hfreed x hlo hhi
  have hall : worldRun (ops ++ later) = some w' := run_append_eq_some.mpr ⟨w, hw, hw'⟩
  have hmem : b.obj ∈ w'.objs :=
    World.mem_objs.mpr (Or.inl ⟨b, World.run_keeps hw' hb hfreed, rfl⟩)
  refine ((World.inv_of_run hall).poisoned_of_mem hmem ⟨hlo, hhi⟩).mpr fun hu => ?_
  simp [Region.User, Obj.region, Block.obj, hfreed] at hu

end Exact

/-- A freed block, a block, an active stack variable, an internal and an external global. -/
def smallRun : List Op :=
  [.heap (.malloc 40 none 0 ⟨some 0x2000, true⟩), .heap (.free 0x2010),
    .heap (.malloc 13 none 0 ⟨some 0x1000, true⟩), .stackEnter ⟨0x7000, 5⟩,
    .globalRegister ⟨0x4010, 24⟩, .globalRegisterRight ⟨0x5000, 3⟩]

/-- After `smallRun` the other block is freed and the stack variable left. -/
def smallRunLater : List Op := [.heap (.free 0x1010), .stackLeave ⟨0x7000, 5⟩]

theorem shadow_exact_smallRun : ∃ w w', worldRun smallRun = some w ∧
    run World.step w smallRunLater = some w' ∧
    (∀ x, bytePoisoned w.rt.shadow x = true ↔
      (w.Tracked x ∧ ¬ w.UserByte x) ∨ w.ExternalGuard x) ∧
    (∀ x, w.UserByte x → bytePoisoned w.rt.shadow x = false) ∧
    ∀ b ∈ w.rt.blocks, b.freed = true →
      ∀ x, b.realBase ≤ x → x < roundUp8 (b.realBase + b.totalSize) →
        bytePoisoned w'.rt.shadow x = true := by
  have hsome : (worldRun (smallRun ++ smallRunLater)).isSome = true := by decide +kernel
  obtain ⟨w', hall⟩ := Option.isSome_iff_exists.mp hsome
  obtain ⟨w, hw, hw'⟩ := run_append_eq_some.mp hall
  exact ⟨w, w', hw, hw', shadow_exact hw hw'⟩

end Redzone.Shadow
