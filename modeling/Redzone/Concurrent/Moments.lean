/-
  Concurrent/Moments.lean --- what a check decides while other calls are under way.

  The inline test and `__redzone_check` read the shadow without a lock, at any moment.  An
  object is at rest when no running call works on it.  Then no update that is still owed
  touches its chunks, so its shadow is already the one of the settled state, and a check
  inside its extent decides as if nobody else was there.

  A block that is being freed is not at rest, but its left red zone is: no update of
  `__redzone_free` reaches below the user bytes.
-/
import Redzone.Concurrent.LockFree
import Redzone.Shadow.Untracked

set_option autoImplicit false

namespace Redzone.Concurrent

open Redzone.Foundation
open Redzone.Shadow

/-! ## Objects at rest -/

/-- No running call works on the object. -/
def Machine.AtRest (m : Machine) (o : Obj) : Prop := ∀ r ∈ m.running, r.own ≠ some o

/-- Inside the extent of the object both the inline test and the check let exactly the
accesses to its user bytes pass, and none if the object is dead. -/
def DecidesOn (s : Rt) (o : Obj) : Prop :=
  ∀ a size isWrite file line, 0 < size → o.lo ≤ a → a + size ≤ roundUp8 o.top →
    (redzoneCheck s a size isWrite file line = .ok () ↔
      o.live = true ∧ o.userLo ≤ a ∧ a + size ≤ o.userHi) ∧
    inlineTest s.shadow a size =
      some (!decide (o.live = true ∧ o.userLo ≤ a ∧ a + size ≤ o.userHi))

section Moments

variable {mem : Bytes} {m : Machine} {r : Running} {ds : List Done} {w : World} {b : Block}
  {o : Obj} {s : Rt} {x : ℕ}

/-- No update touches the chunks of an object at rest. -/
theorem Machine.Inv.keeps_rest (h : m.Inv) (ho : o ∈ m.objs) (hrest : m.AtRest o)
    (hr : r ∈ m.running) {a : Write} (ha : a ∈ r.todo) (hlo : o.lo ≤ x) (hhi : x < roundUp8 o.top) :
    a.KeepsChunk (x / 8) := by
  have hal := (h.laid.ok o ho).lo_aligned
  obtain ⟨o', ho', hwithin⟩ := (h.fits r hr).within ha
  have hal' := (h.laid.ok o' ((h.fits r hr).own_objs hr ho')).lo_aligned
  rcases h.laid.eq_or_apart ho ((h.fits r hr).own_objs hr ho') with rfl | hapart
  · exact absurd ho' (hrest r hr)
  · simp only [Obj.Apart, roundUp8] at hapart hhi
    exact hwithin.chunks (x / 8) (by omega)

/-- Guarded bytes of an extent decide every access in it. -/
theorem decidesOn_of_guarded (hok : o.OK)
    (hguard : ∀ x, o.lo ≤ x → x < roundUp8 o.top →
      (bytePoisoned s.shadow x = true ↔ ¬ o.region.User x)) : DecidesOn s o := by
  intro a size isWrite file line hsize hlo hhi
  have htop : roundUp8 o.top ≤ shadowLimit := by
    have := hok.top_le
    simp only [roundUp8, shadowLimit] at *
    omega
  have hlast : (a + size - 1) % wordSize = a + size - 1 :=
    Nat.mod_eq_of_lt (by simp only [shadowLimit, wordSize] at *; omega)
  have hfirst := hguard a hlo (by omega)
  have hend := hguard (a + size - 1) (by omega) (by omega)
  -- the user bytes have no gap, so the first and the last byte decide
  have hall : (o.region.User a ∧ o.region.User (a + size - 1)) ↔
      o.live = true ∧ o.userLo ≤ a ∧ a + size ≤ o.userHi := by
    simp only [Region.User, Obj.region]
    constructor
    · rintro ⟨⟨hlive, hle, -⟩, -, -, hlt⟩
      exact ⟨hlive, hle, by omega⟩
    · rintro ⟨hlive, hle, hend⟩
      exact ⟨⟨hlive, hle, by omega⟩, hlive, by omega, by omega⟩
  have hpass : (bytePoisoned s.shadow a = false ∧
      bytePoisoned s.shadow ((a + size - 1) % wordSize) = false) ↔
      o.live = true ∧ o.userLo ≤ a ∧ a + size ≤ o.userHi := by
    rw [← hall, hlast, Bool.eq_false_iff, Bool.eq_false_iff, ne_eq, ne_eq, hfirst, hend, not_not,
      not_not]
  refine ⟨(redzoneCheck_ok hsize).trans hpass, ?_⟩
  rw [inlineTest_eq hsize (by omega) (by omega)]
  refine congrArg some ?_
  rw [Bool.eq_iff_iff, Bool.not_eq_true', decide_eq_false_iff_not, ← hpass, Bool.or_eq_true]
  cases bytePoisoned s.shadow a <;> cases bytePoisoned s.shadow ((a + size - 1) % wordSize) <;>
    simp

/-- An object of the settled world that is at rest decides its accesses now. -/
theorem Simulates.decidesOn (h : Simulates mem m ds w) (hinv : m.Inv) {o' : Obj} (ho' : o' ∈ m.objs)
    (hrest : m.AtRest o') (ho : o ∈ w.objs) (hlo : o.lo = o'.lo) (htop : o.top = o'.top) :
    DecidesOn m.rt o := by
  have hworld := (intact_of_seq h.seq).inv
  refine decidesOn_of_guarded (hworld.ok o ho) fun x hx hx' => ?_
  rw [h.bytePoisoned_eq fun r hr a ha =>
    hinv.keeps_rest ho' hrest hr ha (by rwa [← hlo]) (by rwa [← htop])]
  exact hworld.poisoned_of_mem ho ⟨hx, hx'⟩

end Moments

/-! ## At every moment -/

/-- In every state that an orderly interleaving of calls reaches, whatever calls are under way: in
the extent of a recorded block, or of a variable that has been entered, on which no running
call works, the inline test and the check let exactly the accesses to the user bytes of a
live object pass; and the left red zone of a block that has been handed out is poisoned,
also while the block is being freed. -/
theorem checks_decide_at_every_moment {mem : Bytes} {es : List Event} {m : Machine}
    (hrun : run mstep (.initial mem) es = some m)
    (hord : EveryStep mstep Machine.Orderly (.initial mem) es) :
    (∀ b ∈ m.rt.blocks, m.AtRest (place b) → DecidesOn m.rt b.obj) ∧
    (∀ t v, (t, v) ∈ m.stack → m.AtRest v.obj → DecidesOn m.rt v.obj) ∧
    ∀ b ∈ m.rt.blocks, m.Published b → ∀ x, b.realBase ≤ x → x < b.userAddr →
      bytePoisoned m.rt.shadow x = true := by
  obtain ⟨hinv, ds, w, hsim⟩ := simulates_of_run hrun hord
  have hblocks : w.rt.blocks = m.rt.blocks := by rw [← hsim.rt, settle_blocks]
  have hobj : ∀ b ∈ m.rt.blocks, b.obj ∈ w.objs := by
    intro b hb
    rw [← hblocks] at hb
    exact World.mem_objs.mpr (Or.inl ⟨b, hb, rfl⟩)
  refine ⟨?_, ?_, ?_⟩
  · intro b hb hrest
    have hplace : place b ∈ m.objs := List.mem_append_left _ (List.mem_map_of_mem hb)
    exact hsim.decidesOn hinv hplace hrest (hobj b hb) rfl rfl
  · intro t v hv hrest
    have hmem : v.obj ∈ m.objs :=
      List.mem_append_right _ (List.mem_append_left _ (List.mem_map.mpr ⟨(t, v), hv, rfl⟩))
    have hstack : v ∈ w.stack := hsim.stack.subset (List.mem_map.mpr ⟨(t, v), hv, rfl⟩)
    exact hsim.decidesOn hinv hmem hrest
      (World.mem_objs.mpr (Or.inr (Or.inl ⟨v, hstack, rfl⟩))) rfl rfl
  · intro b hb hpub x hlo hhi
    have hworld := (intact_of_seq hsim.seq).inv
    have hok := hworld.ok b.obj (hobj b hb)
    have hguard := hok.guard
    have hule := hok.user_le
    simp only [Block.obj] at hguard hule
    rw [hsim.bytePoisoned_eq fun r hr a ha => (hinv.keeps_left hb hpub hr ha hlo hhi).1]
    refine (hworld.poisoned_of_mem (hobj b hb) ⟨hlo, ?_⟩).mpr fun huser => ?_
    · simp only [Obj.region, Block.obj, roundUp8]
      omega
    · exact Nat.not_lt.mpr huser.2.1 hhi

/-- In the first block only the poison of a free is still to be painted, and no call works on
the other one. -/
def midway (m : Machine) : Prop :=
  m.rt.blocks[0]?.map Block.userAddr = some 0x2010 ∧
    m.rt.blocks[1]?.map (fun b => (b.realBase, b.userAddr)) = some (0x1000, 0x1010) ∧
    ∀ r ∈ m.running, r.own ≠ m.rt.blocks[0]?.map place ∧ r.call.isFree = true

instance (m : Machine) : Decidable (midway m) := inferInstanceAs (Decidable (_ ∧ _ ∧ _))

/-- While the first block is being freed, the other one decides its accesses, and the left red
zone of the first one is there. -/
theorem checks_decide_midway : ∃ m,
    run mstep (.initial fun _ => 0xab) (turnsRun ++ freesRun.take 5) = some m ∧
    (∃ b ∈ m.rt.blocks, b.userAddr = 0x2010 ∧ DecidesOn m.rt b.obj) ∧
    bytePoisoned m.rt.shadow 0x1008 = true := by
  have hany : (run mstep (.initial fun _ => 0xab) (turnsRun ++ freesRun.take 5)).any
      (fun m => midway m) = true := by
    decide +kernel
  have hord : EveryStep mstep Machine.Orderly (.initial fun _ => 0xab)
      (turnsRun ++ freesRun.take 5) := by
    decide +kernel
  obtain ⟨m, hm, hend⟩ := (Option.any_eq_true ..).mp hany
  obtain ⟨hother, hfirst, hrunning⟩ := of_decide_eq_true hend
  obtain ⟨b, hb, huser⟩ := Option.map_eq_some_iff.mp hother
  obtain ⟨b₁, hb₁, hplace⟩ := Option.map_eq_some_iff.mp hfirst
  obtain ⟨hlo, huser₁⟩ := Prod.mk.inj hplace
  obtain ⟨hdecides, -, hleft⟩ := checks_decide_at_every_moment hm hord
  have hmem := List.mem_of_getElem? hb
  refine ⟨m, hm, ⟨b, hmem, huser, hdecides b hmem fun r hr => ?_⟩, ?_⟩
  · have hown := (hrunning r hr).1
    rw [hb] at hown
    exact hown
  · refine hleft b₁ (List.mem_of_getElem? hb₁) (fun r hr _ => ?_) 0x1008 (by omega) (by omega)
    exact isFree_iff.mp (hrunning r hr).2

end Redzone.Concurrent
