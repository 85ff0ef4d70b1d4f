/-
  Concurrent/Steps.lean --- every step keeps the calls apart.

  The invariant of `Concurrent/Separate.lean` is kept by every effect of an orderly step.
  The one step at which two calls come to work on the same object is that of a free which
  finds a block whose allocation has not returned.
-/
import Redzone.Concurrent.Separate

set_option autoImplicit false

namespace Redzone.Concurrent

open Redzone.Foundation
open Redzone.Shadow

/-! ## Lookups -/

section Lookups

variable {s rt : Rt} {ptr i : ℕ} {b : Block}

theorem lockedFree_some (h : lockedFree s ptr = .ok (some b, rt)) :
    ∃ i, blockFromUserPtr s ptr = some i ∧ s.blocks[i]? = some b ∧ b.userAddr = ptr ∧
      b.freed = false ∧ rt = { s with blocks := s.blocks.set i { b with freed := true } } := by
  unfold lockedFree at h
  cases hfound : blockFromUserPtr s ptr with
  | none =>
      rw [hfound] at h
      cases hfind : findBlock s ptr with
      | none => simp [hfind] at h
      | some b' => simp [hfind] at h
  | some i =>
      obtain ⟨b', hb', huser⟩ := blockFromUserPtr_eq_some hfound
      simp only [hfound, hb'] at h
      split at h
      · simp at h
      · rename_i hlive
        obtain ⟨hb, hrt⟩ := Prod.mk.inj (Except.ok.inj h)
        obtain rfl := Option.some.inj hb
        exact ⟨i, rfl, hb', huser, by simpa using hlive, hrt.symm⟩

theorem lockedFree_none (h : lockedFree s ptr = .ok (none, rt)) :
    rt = s ∧ blockFromUserPtr s ptr = none ∧ findBlock s ptr = none := by
  unfold lockedFree at h
  cases hfound : blockFromUserPtr s ptr with
  | none =>
      rw [hfound] at h
      cases hfind : findBlock s ptr with
      | none =>
          simp only [hfind] at h
          exact ⟨(Prod.mk.inj (Except.ok.inj h)).2.symm, rfl, rfl⟩
      | some b' => simp [hfind] at h
  | some i =>
      obtain ⟨b', hb', -⟩ := blockFromUserPtr_eq_some hfound
      simp only [hfound, hb'] at h
      split at h
      · simp at h
      · simp at h

/-- Marking a block as freed does not move it. -/
theorem map_place_set (hb : s.blocks[i]? = some b) :
    (s.blocks.set i { b with freed := true }).map place = s.blocks.map place := by
  have hlt := (List.getElem?_eq_some_iff.mp hb).1
  apply List.ext_getElem?
  intro j
  rw [List.getElem?_map, List.getElem?_map, List.getElem?_set]
  by_cases hij : i = j
  · rw [← hij, if_pos rfl, if_pos hlt, hb]
    rfl
  · rw [if_neg hij]

end Lookups

/-! ## Single facts -/

section Facts

variable {m m' : Machine} {t : ℕ} {r r' : Running} {b : Block} {o : Obj}

/-- Where a call is does not depend on what the other threads do. -/
theorem Machine.Fits.mono (h : m.Fits r)
    (hblocks : ∀ b ∈ m.rt.blocks, ∃ b' ∈ m'.rt.blocks, place b' = place b ∧
      (b.freed = true → b'.freed = true))
    (hstack : ∀ v, (r.tid, v) ∈ m.stack → (r.tid, v) ∈ m'.stack) : m'.Fits r := by
  cases h with
  | record b hstage hreq hroom => exact .record b hstage hreq hroom
  | find ptr hstage hcall hptr => exact .find ptr hstage hcall hptr
  | nothing value hstage => exact .nothing value hstage
  | alloc b todo hstage hcall hrec hwithin =>
      refine .alloc b todo hstage hcall ?_ hwithin
      obtain ⟨b₁, hb₁, hplace⟩ := List.mem_map.mp hrec
      obtain ⟨b₂, hb₂, hplace₂, -⟩ := hblocks b₁ hb₁
      exact List.mem_map.mpr ⟨b₂, hb₂, hplace₂.trans hplace⟩
  | free b ptr todo hstage hcall hrec hwithin hshadow hleft =>
      refine .free b ptr todo hstage hcall ?_ hwithin hshadow hleft
      obtain ⟨b₁, hb₁, hplace, hfreed⟩ := hrec
      obtain ⟨b₂, hb₂, hplace₂, hfreed₂⟩ := hblocks b₁ hb₁
      exact ⟨b₂, hb₂, hplace₂.trans hplace, hfreed₂ hfreed⟩
  | enter v todo hstage hcall hv hwithin hshadow =>
      exact .enter v todo hstage hcall (hstack v hv) hwithin hshadow
  | leave v todo hstage hcall hwithin hshadow =>
      exact .leave v todo hstage hcall hwithin hshadow
  | reported e hstage => exact .reported e hstage

theorem forall_mem_some {α : Type} {P : α → Prop} {x : α} (h : P x) : ∀ y ∈ some x, P y := by
  simpa using h

/-- What a step of thread `t` has to provide. -/
theorem Machine.Inv.next (h : m.Inv) (next : Option Running)
    (hrun : m'.running = next.toList ++ m.rest t) (htid : ∀ r ∈ next, r.tid = t)
    (hlaid : Laid m'.objs) (hroom : ∀ b ∈ m'.rt.blocks, b.realBase + redzoneSize ≤ b.userAddr)
    (hblocks : ∀ b ∈ m.rt.blocks, ∃ b' ∈ m'.rt.blocks, place b' = place b ∧
      (b.freed = true → b'.freed = true))
    (hstack : ∀ x ∈ m.stack, x.1 ≠ t → x ∈ m'.stack)
    (hfits : ∀ r ∈ next, m'.Fits r) (hbeside : ∀ r ∈ next, ∀ r' ∈ m.rest t, r.Beside r') :
    m'.Inv := by
  refine ⟨?_, hlaid, hroom, ?_, ?_⟩
  · rw [hrun]
    have hrest : ((m.rest t).map Running.tid).Nodup :=
      h.tids.sublist (List.eraseP_sublist.map Running.tid)
    cases next with
    | none => exact hrest
    | some r =>
        refine List.nodup_cons.mpr ⟨fun hmem => ?_, hrest⟩
        obtain ⟨r', hr', heq⟩ := List.mem_map.mp hmem
        exact h.rest_tid hr' (heq.trans (htid r rfl))
  · rw [hrun]
    intro r hr
    rcases List.mem_append.mp hr with hr | hr
    · exact hfits r (Option.mem_toList.mp hr)
    · refine (h.fits r (mem_rest hr)).mono hblocks fun v hv => ?_
      exact hstack _ hv (h.rest_tid hr)
  · rw [hrun]
    have hrest : (m.rest t).Pairwise Running.Beside := h.beside.sublist List.eraseP_sublist
    cases next with
    | none => exact hrest
    | some r => exact List.pairwise_cons.mpr ⟨hbeside r rfl, hrest⟩

/-- The same where the thread goes on with call `r`. -/
theorem Machine.Inv.put (h : m.Inv) (r : Running) (hrun : m'.running = r :: m.rest r.tid)
    (hlaid : Laid m'.objs) (hroom : ∀ b ∈ m'.rt.blocks, b.realBase + redzoneSize ≤ b.userAddr)
    (hblocks : ∀ b ∈ m.rt.blocks, ∃ b' ∈ m'.rt.blocks, place b' = place b ∧
      (b.freed = true → b'.freed = true))
    (hstack : ∀ x ∈ m.stack, x.1 ≠ r.tid → x ∈ m'.stack) (hfits : m'.Fits r)
    (hbeside : ∀ r' ∈ m.rest r.tid, r.Beside r') : m'.Inv := by
  apply h.next (some r) hrun
  · exact forall_mem_some rfl
  · exact hlaid
  · exact hroom
  · exact hblocks
  · exact hstack
  · exact forall_mem_some hfits
  · exact forall_mem_some hbeside

/-- The same where the table stays as it is. -/
theorem Machine.Inv.put_of_blocks (h : m.Inv) (r : Running) (hrun : m'.running = r :: m.rest r.tid)
    (htable : m'.rt.blocks = m.rt.blocks) (hlaid : Laid m'.objs)
    (hstack : ∀ x ∈ m.stack, x.1 ≠ r.tid → x ∈ m'.stack)
    (hfits : m'.Fits r) (hbeside : ∀ r' ∈ m.rest r.tid, r.Beside r') : m'.Inv := by
  apply h.put r hrun hlaid
  · rw [htable]
    exact h.room
  · rw [htable]
    exact fun b hb => ⟨b, hb, rfl, id⟩
  · exact hstack
  · exact hfits
  · exact hbeside

/-- A call without an object is beside every other call. -/
theorem beside_of_none (h : r.own = none) : r.Beside r' := by
  intro o ho
  rw [h] at ho
  simp at ho

theorem beside_of_clear (h : m.Inv) (hclear : ∀ o ∈ r.own, m.Clear t o) (hr' : r' ∈ m.rest t) :
    r.Beside r' :=
  fun o ho _ ho' => Or.inl ((hclear o ho).own h hr' ho')

/-- The objects when thread `t` has nothing, or no longer has what it held. -/
theorem Machine.Inv.laid_others (h : m.Inv) (t : ℕ) : Laid (m.others t) := by
  refine h.laid.subperm (List.Subperm.trans ?_ (objs_perm m t).symm.subperm)
  exact (List.sublist_append_right _ _).subperm

end Facts

/-! ## The effects -/

section Effects

variable {m m' : Machine} {t : ℕ} {r r' : Running} {b : Block} {v : StackVar} {ev : Event}

theorem Machine.Fresh.apart {lo top : ℕ} (h : m.Fresh lo top) {o : Obj} (hlo : o.lo = lo)
    (htop : o.top = top) : ∀ o' ∈ m.objs, Obj.Apart o o' := by
  intro o' ho'
  unfold Obj.Apart
  rw [hlo, htop]
  exact h.2.2 o' ho'

/-- The objects when a thread goes on with a call. -/
theorem objs_put (m : Machine) (r : Running) :
    (m.put r).objs.Perm (r.held.toList ++ m.others r.tid) := by
  unfold Machine.objs Machine.others Machine.put
  cases hheld : r.held with
  | none => simp [hheld]
  | some o =>
      simp only [List.filterMap_cons, hheld, Option.toList_some, List.singleton_append]
      rw [← List.append_assoc, ← List.append_assoc]
      exact List.perm_middle

theorem stackVar_ok (hal : v.base % 16 = 0)
    (htop : v.base + v.size + 2 * redzoneSize ≤ shadowLimit) :
    v.obj.OK := by
  simp only [redzoneSize] at htop
  refine ⟨hal, ?_, Or.inr ?_, ?_, ?_, ?_, htop⟩
  · exact Nat.le_add_right _ _
  · exact le_rfl
  · simp only [StackVar.obj, redzoneSize]
    omega
  · exact Nat.le_add_right _ _
  · simp only [StackVar.obj, redzoneSize]
    omega

/-- A call that has no object, and holds nothing; memory may change. -/
theorem Machine.Inv.idle_mem (h : m.Inv) (mem : Bytes) (hheld : r.held = none)
    (hown : r.own = none)
    (hfits : Machine.Fits { m.put r with rt := { m.rt with mem := mem } } r) :
    Machine.Inv { m.put r with rt := { m.rt with mem := mem } } := by
  refine h.put_of_blocks r rfl rfl ?_ ?_ ?_ ?_
  · apply (h.laid_others r.tid).subperm
    have hperm := objs_put m r
    rw [hheld] at hperm
    exact hperm.subperm
  · exact fun x hx _ => hx
  · exact hfits
  · exact fun r' _ => beside_of_none hown

theorem Machine.Inv.idle (h : m.Inv) (hheld : r.held = none) (hown : r.own = none)
    (hfits : (m.put r).Fits r) : (m.put r).Inv :=
  h.idle_mem m.rt.mem hheld hown hfits

theorem Machine.Inv.nothing (h : m.Inv) {c : Call} {sys : Sys} (hc : c.Nothing sys) :
    (m.put ⟨t, c, sys, .writes none [] none⟩).Inv := by
  apply h.idle
  · cases c with
    | malloc | alignedAlloc | calloc | free | stackEnter | store => rfl
    | stackLeave v => exact hc.elim
  · rfl
  · exact .nothing none rfl

theorem Machine.Inv.request (h : m.Inv) {c : Call} {sys : Sys} (hidle : m.current t = none)
    (hc : c.request sys = some b) (hfresh : m.Fresh b.realBase (b.realBase + b.totalSize)) :
    (m.put ⟨t, c, sys, .record b⟩).Inv := by
  obtain ⟨hok, hroom⟩ := Call.request_layout hc hfresh.1 hfresh.2.1
  have hapart := hfresh.apart (o := place b) rfl rfl
  have hothers : m.objs.Perm (m.others t) := by
    have hperm := objs_perm m t
    rw [hidle] at hperm
    exact hperm
  refine h.put_of_blocks ⟨t, c, sys, .record b⟩ rfl rfl ?_ ?_ ?_ ?_
  · have hlaid : Laid (place b :: m.others t) := by
      apply (h.laid_others t).cons hok
      exact fun o' ho' => hapart o' (hothers.mem_iff.mpr ho')
    exact hlaid.subperm (objs_put m ⟨t, c, sys, .record b⟩).subperm
  · exact fun x hx _ => hx
  · exact .record b rfl hc hroom
  · exact fun r' _ => beside_of_none rfl

theorem Machine.Inv.enter (h : m.Inv) {sys : Sys}
    (hfresh : m.Fresh v.base (v.base + v.size + 2 * redzoneSize)) :
    Machine.Inv { m.put ⟨t, .stackEnter v, sys, .writes (some v.obj) (enterWrites v) none⟩ with
      stack := (t, v) :: m.stack } := by
  have hapart := hfresh.apart (o := v.obj) rfl rfl
  have hok : v.obj.OK := stackVar_ok hfresh.1 hfresh.2.1
  refine h.put_of_blocks ⟨t, .stackEnter v, sys, .writes (some v.obj) (enterWrites v) none⟩ rfl rfl
    ?_ ?_ ?_ ?_
  · have hlaid : Laid (v.obj :: m.others t) := by
      apply (h.laid_others t).cons hok
      intro o' ho'
      apply hapart
      exact (objs_perm m t).mem_iff.mpr (List.mem_append_right _ ho')
    refine hlaid.subperm (List.Perm.subperm ?_)
    exact List.perm_middle
  · exact fun x hx _ => List.mem_cons_of_mem _ hx
  · apply Machine.Fits.enter v (enterWrites v) rfl rfl (List.mem_cons_self ..)
    · exact fun a ha => within_enterWrites hok ha
    · exact fun a ha => onShadow_enterWrites ha
  · intro r' hr'
    apply beside_of_clear h ?_ hr'
    exact forall_mem_some (clear_of_fresh hapart)

theorem Machine.Inv.leave (h : m.Inv) {sys : Sys} (hv : (t, v) ∈ m.stack) :
    Machine.Inv { m.put ⟨t, .stackLeave v, sys, .writes (some v.obj) (leaveWrites v) none⟩ with
      stack := m.stack.erase (t, v) } := by
  have hok : v.obj.OK := by
    apply h.laid.ok
    apply List.mem_append_right
    apply List.mem_append_left
    exact List.mem_map.mpr ⟨(t, v), hv, rfl⟩
  refine h.put_of_blocks ⟨t, .stackLeave v, sys, .writes (some v.obj) (leaveWrites v) none⟩ rfl rfl
    ?_ ?_ ?_ ?_
  · have hstack : (m.stack.map fun x => x.2.obj).Perm
        (v.obj :: (m.stack.erase (t, v)).map fun x => x.2.obj) :=
      (List.perm_cons_erase hv).map fun x => x.2.obj
    have hperm : (m.others t).Perm (m.rt.blocks.map place ++
        ((m.stack.erase (t, v)).map (fun x => x.2.obj) ++
          v.obj :: (m.rest t).filterMap Running.held)) := by
      refine ((hstack.append_right _).trans ?_).append_left _
      exact List.perm_middle.symm
    exact (h.laid_others t).subperm hperm.symm.subperm
  · intro x hx hne
    apply (List.mem_erase_of_ne ?_).mpr hx
    rintro rfl
    exact hne rfl
  · apply Machine.Fits.leave v (leaveWrites v) rfl rfl
    · exact fun a ha => within_leaveWrites hok ha
    · exact fun a ha => onShadow_leaveWrites ha
  · intro r' hr'
    apply beside_of_clear h ?_ hr'
    exact forall_mem_some (h.clear_of_stack hv)

theorem Machine.Inv.record (h : m.Inv) (hr : m.current r.tid = some r)
    (hstage : r.stage = .record b) {idx : ℕ} {rt : Rt}
    (hrec : recordBlock m.rt b r.sys.growOk = .ok (idx, rt)) :
    Machine.Inv { m.put (r.recorded b idx) with rt := rt } := by
  obtain ⟨hreq, hroom⟩ := (h.fits r (mem_running hr)).of_record hstage
  obtain ⟨-, hblocks, -, -⟩ := recordBlock_ok hrec
  have hheld : r.held = some (place b) := by
    unfold Running.held
    rw [hstage]
  have hfree : ∀ ptr, r.call ≠ .free ptr := by
    intro ptr hcall
    rw [hcall] at hreq
    simp [Call.request] at hreq
  have hnone : (r.recorded b idx).held = none := by
    unfold Running.held Running.recorded
    cases hcall : r.call with
    | malloc | alignedAlloc | calloc | free | stackEnter | store => rfl
    | stackLeave v =>
        rw [hcall] at hreq
        simp [Call.request] at hreq
  have hperm := objs_perm m r.tid
  rw [hr, Option.bind_some, hheld] at hperm
  have hok : (place b).OK := h.laid.ok _ (hperm.mem_iff.mpr (List.mem_cons_self ..))
  refine h.put (r.recorded b idx) rfl ?_ ?_ ?_ (fun x hx _ => hx) ?_ ?_
  · refine h.laid.subperm (List.Perm.subperm (List.Perm.trans ?_ hperm.symm))
    unfold Machine.objs Machine.others Machine.put
    simp only [hblocks, List.map_append, List.map_cons, List.map_nil, List.filterMap_cons, hnone,
      List.append_assoc]
    exact List.perm_middle
  · intro b' hb'
    rw [hblocks] at hb'
    rcases List.mem_append.mp hb' with hb' | hb'
    · exact h.room b' hb'
    · rw [List.mem_singleton.mp hb']
      exact hroom
  · intro b' hb'
    refine ⟨b', ?_, rfl, id⟩
    rw [hblocks]
    exact List.mem_append_left _ hb'
  · refine .alloc b _ rfl hfree ?_ ?_
    · rw [hblocks]
      exact List.mem_map_of_mem (by simp)
    · intro a ha
      rcases List.mem_append.mp ha with ha | ha
      · exact within_allocWrites hok hroom ha
      · rw [Call.clears_eq hreq ha]
        have hle := hok.lo_le
        have hguard := hok.guard
        simp only [place, Block.obj] at hle hguard
        apply within_zero
        · exact hle
        · simp only [place, Block.obj]
          omega
  · intro r' hr'
    exact beside_of_clear h (forall_mem_some (h.clear_of_held hr hheld)) hr'

theorem Machine.Inv.report (h : m.Inv) {e : Abort} :
    (m.put { r with stage := .reported e }).Inv := by
  apply h.idle
  · rfl
  · rfl
  · exact .reported e rfl

theorem Machine.Inv.ignore (h : m.Inv) (hr : m.current r.tid = some r) {ptr : ℕ} {rt : Rt}
    (hstage : r.stage = .find ptr) (hfree : lockedFree m.rt ptr = .ok (none, rt)) :
    Machine.Inv { m.put r.through with rt := rt } := by
  obtain ⟨rfl, -, -⟩ := lockedFree_none hfree
  obtain ⟨hcall, -⟩ := (h.fits r (mem_running hr)).of_find hstage
  refine h.idle (r := r.through) ?_ rfl (.nothing none rfl)
  unfold Running.held Running.through
  rw [hcall]

/-- A call whose object is a block: it allocates it, or frees it and has marked it. -/
theorem Machine.Inv.own_block (h : m.Inv) (hr : r ∈ m.running) (hb : b ∈ m.rt.blocks)
    (hown : r.own = some (place b)) :
    (∀ ptr, r.call ≠ .free ptr) ∨
    ((∃ ptr, r.call = .free ptr) ∧ b.freed = true ∧ (∀ a ∈ r.todo, a.OnShadow) ∧
      ∀ a ∈ r.todo, ∀ i, 8 * i < b.userAddr → a.KeepsChunk i) := by
  have hmem : place b ∈ m.rt.blocks.map place := List.mem_map_of_mem hb
  have hself : ¬ Obj.Apart (place b) (place b) :=
    not_apart (h.laid.ok _ (List.mem_append_left _ hmem))
  obtain ⟨hblocks, -, hcross⟩ := List.pairwise_append.mp h.laid.apart
  have hfits := h.fits r hr
  unfold Running.own at hown
  unfold Running.todo
  cases hfits with
  | record b' hstage => simp [hstage] at hown
  | find ptr hstage => simp [hstage] at hown
  | nothing value hstage => simp [hstage] at hown
  | reported e hstage => simp [hstage] at hown
  | alloc b' todo hstage hcall => exact Or.inl hcall
  | free b' ptr todo hstage hcall hrec hwithin hshadow hleft =>
      rw [hstage] at hown ⊢
      have hplace : place b' = place b := Option.some.inj hown
      have haddr : b'.userAddr = b.userAddr := congrArg Obj.userLo hplace
      rw [haddr] at hleft
      obtain ⟨b'', hb'', hplace', hfreed⟩ := hrec
      have hsame : b'' = b := by
        by_contra hne
        have hapart := (List.pairwise_map.mp hblocks).forall hb'' hb hne
        rw [hplace', hplace] at hapart
        exact hself hapart
      rw [hsame] at hfreed
      exact Or.inr ⟨⟨ptr, hcall⟩, hfreed, hshadow, hleft⟩
  | enter v todo hstage hcall hv =>
      rw [hstage] at hown
      have hv' : v.obj ∈ m.stack.map fun x => x.2.obj := List.mem_map.mpr ⟨_, hv, rfl⟩
      have hapart := hcross (place b) hmem v.obj (List.mem_append_left _ hv')
      rw [Option.some.inj hown] at hapart
      exact absurd hapart hself
  | leave v todo hstage hcall =>
      rw [hstage] at hown
      have hheld : r.held = some v.obj := by
        unfold Running.held
        rw [hstage, hcall]
      have hv' : v.obj ∈ m.running.filterMap Running.held := List.mem_filterMap.mpr ⟨r, hr, hheld⟩
      have hapart := hcross (place b) hmem v.obj (List.mem_append_right _ hv')
      rw [Option.some.inj hown] at hapart
      exact absurd hapart hself

theorem onMem_of_isMem {a : Write} (h : a.isMem = true) : a.OnMem := by
  cases a with
  | range | byte => simp [Write.isMem] at h
  | word => exact onMem_word
  | zero => exact onMem_zero

/-- The allocation of a painted block has updates of memory left only. -/
theorem onMem_of_painted (hpainted : m.unpainted b = false) (hr : r ∈ m.running)
    (hown : r.own = some (place b)) (hcall : ∀ ptr, r.call ≠ .free ptr) {a : Write}
    (ha : a ∈ r.todo) : a.OnMem := by
  apply onMem_of_isMem
  have hfree : r.call.isFree = false := by
    rw [Bool.eq_false_iff]
    intro hfree
    obtain ⟨ptr, hptr⟩ := isFree_iff.mp hfree
    exact hcall ptr hptr
  have hnone := List.any_eq_false.mp hpainted r hr
  simp only [hown, hfree, decide_true, Bool.not_false, Bool.true_and, Bool.not_eq_true] at hnone
  have hmem := List.any_eq_false.mp hnone a ha
  simpa using hmem

/-- The block that an orderly lookup finds is painted. -/
theorem painted_of_late (hlate : m.findsEarly (.lock r.tid) = false)
    (hr : m.current r.tid = some r) {ptr i : ℕ} (hstage : r.stage = .find ptr)
    (hfound : blockFromUserPtr m.rt ptr = some i) (hi : m.rt.blocks[i]? = some b) :
    m.unpainted b = false := by
  have hblock : r.found m.rt = some b := by
    unfold Running.found
    simp only [hstage, hfound, Option.bind_some, hi]
  simpa only [Machine.findsEarly, hr, Option.any_some, hblock] using hlate

/-- A free that finds a live block is beside the other calls. -/
theorem Machine.Inv.beside_of_mark (h : m.Inv) {r' : Running} {ptr : ℕ}
    (hcall : r.call = .free ptr) (hb : b ∈ m.rt.blocks) (hlive : b.freed = false)
    (hpainted : m.unpainted b = false) (hr' : r' ∈ m.running) : (r.marked b).Beside r' := by
  have hmem : place b ∈ m.rt.blocks.map place := List.mem_map_of_mem hb
  obtain ⟨-, -, hcross⟩ := List.pairwise_append.mp h.laid.apart
  intro o ho o' ho'
  obtain rfl := Option.some.inj ho
  rcases (h.fits r' hr').own_mem ho' with hblock | ⟨v, rfl, hv⟩ | hheld
  · rcases h.laid.eq_or_apart (List.mem_append_left _ hmem) (List.mem_append_left _ hblock) with
      rfl | hapart
    · rcases h.own_block hr' hb ho' with hcall' | ⟨-, hfreed, -⟩
      · refine Or.inr (Or.inl ⟨⟨ptr, hcall⟩, fun a ha => onShadow_freeWrites ha, ?_⟩)
        exact fun a ha => onMem_of_painted hpainted hr' ho' hcall' ha
      · rw [hlive] at hfreed
        simp at hfreed
    · exact Or.inl hapart
  · refine Or.inl (hcross (place b) hmem v.obj (List.mem_append_left _ ?_))
    exact List.mem_map.mpr ⟨_, hv, rfl⟩
  · refine Or.inl (hcross (place b) hmem o' (List.mem_append_right _ ?_))
    exact List.mem_filterMap.mpr ⟨r', hr', hheld⟩

theorem Machine.Inv.mark (h : m.Inv) (hr : m.current r.tid = some r) {ptr : ℕ} {rt : Rt}
    (hstage : r.stage = .find ptr) (hfree : lockedFree m.rt ptr = .ok (some b, rt))
    (hlate : m.findsEarly (.lock r.tid) = false) :
    Machine.Inv { m.put (r.marked b) with rt := rt } := by
  obtain ⟨i, hfound, hi, -, hlive, rfl⟩ := lockedFree_some hfree
  obtain ⟨hcall, -⟩ := (h.fits r (mem_running hr)).of_find hstage
  have hb := List.mem_of_getElem? hi
  have hlt := (List.getElem?_eq_some_iff.mp hi).1
  have hok : (place b).OK :=
    h.laid.ok _ (List.mem_append_left _ (List.mem_map_of_mem hb))
  have hheld : (r.marked b).held = none := by
    unfold Running.held Running.marked
    rw [hcall]
  have hplaces := map_place_set hi
  refine h.put (r.marked b) rfl ?_ ?_ ?_ (fun x hx _ => hx) ?_ ?_
  · have hobjs : Machine.objs { m.put (r.marked b) with
        rt := { m.rt with blocks := m.rt.blocks.set i { b with freed := true } } } =
          (m.put (r.marked b)).objs := by
      unfold Machine.objs
      rw [hplaces]
      rfl
    have hperm := objs_put m (r.marked b)
    rw [hheld] at hperm
    rw [hobjs]
    exact (h.laid_others r.tid).subperm hperm.subperm
  · intro b' hb'
    rcases List.mem_or_eq_of_mem_set hb' with hb' | rfl
    · exact h.room b' hb'
    · exact h.room b hb
  · intro b' hb'
    obtain ⟨j, hj⟩ := List.getElem?_of_mem hb'
    by_cases hij : i = j
    · rw [← hij, hi] at hj
      obtain rfl := Option.some.inj hj
      exact ⟨{ b with freed := true }, List.mem_set hlt _, rfl, fun _ => rfl⟩
    · refine ⟨b', List.mem_of_getElem? (i := j) ?_, rfl, id⟩
      rw [List.getElem?_set_ne hij]
      exact hj
  · refine .free b ptr _ rfl hcall ?_ ?_ ?_ ?_
    · exact ⟨{ b with freed := true }, List.mem_set hlt _, rfl, rfl⟩
    · exact fun a ha => within_freeWrites hok ha
    · exact fun a ha => onShadow_freeWrites ha
    · exact fun a ha i hi => keepsChunk_freeWrites hok ha hi
  · intro r' hr'
    exact h.beside_of_mark hcall hb hlive (painted_of_late hlate hr hstage hfound hi) (mem_rest hr')

/-- The call has made its first update. -/
theorem Machine.Fits.tail {own : Option Obj} {a : Write} {todo : List Write} {value : Option ℕ}
    (h : m.Fits r) (hstage : r.stage = .writes own (a :: todo) value) :
    Machine.Fits { m.put { r with stage := .writes own todo value } with rt := a.act m.rt }
      { r with stage := .writes own todo value } := by
  cases h with
  | record b hstage' => simp [hstage] at hstage'
  | find ptr hstage' => simp [hstage] at hstage'
  | nothing value hstage' => simp [hstage] at hstage'
  | reported e hstage' => simp [hstage] at hstage'
  | alloc b todo' hstage' hcall hrec hwithin =>
      obtain ⟨rfl, rfl, rfl⟩ := Stage.writes.inj (hstage.symm.trans hstage')
      exact .alloc b todo rfl hcall hrec (List.forall_mem_cons.mp hwithin).2
  | free b ptr todo' hstage' hcall hrec hwithin hshadow hleft =>
      obtain ⟨rfl, rfl, rfl⟩ := Stage.writes.inj (hstage.symm.trans hstage')
      exact .free b ptr todo rfl hcall hrec (List.forall_mem_cons.mp hwithin).2
        (List.forall_mem_cons.mp hshadow).2 (List.forall_mem_cons.mp hleft).2
  | enter v todo' hstage' hcall hv hwithin hshadow =>
      obtain ⟨rfl, rfl, rfl⟩ := Stage.writes.inj (hstage.symm.trans hstage')
      exact .enter v todo rfl hcall hv (List.forall_mem_cons.mp hwithin).2
        (List.forall_mem_cons.mp hshadow).2
  | leave v todo' hstage' hcall hwithin hshadow =>
      obtain ⟨rfl, rfl, rfl⟩ := Stage.writes.inj (hstage.symm.trans hstage')
      exact .leave v todo rfl hcall (List.forall_mem_cons.mp hwithin).2
        (List.forall_mem_cons.mp hshadow).2

theorem Running.Beside.tail {r₁ : Running} {own : Option Obj} {a : Write} {todo : List Write}
    {value : Option ℕ} (h : r.Beside r₁) (hstage : r.stage = .writes own (a :: todo) value) :
    Running.Beside { r with stage := .writes own todo value } r₁ := by
  have hown : r.own = own := by
    unfold Running.own
    rw [hstage]
  have htodo : r.todo = a :: todo := by
    unfold Running.todo
    rw [hstage]
  intro o ho o' ho'
  rcases h o (hown ▸ ho) o' ho' with hapart | ⟨hcall, hshadow, hmem⟩ | ⟨hcall, hshadow, hmem⟩
  · exact Or.inl hapart
  · rw [htodo] at hshadow
    exact Or.inr (Or.inl ⟨hcall, (List.forall_mem_cons.mp hshadow).2, hmem⟩)
  · rw [htodo] at hmem
    exact Or.inr (Or.inr ⟨hcall, hshadow, (List.forall_mem_cons.mp hmem).2⟩)

theorem Machine.Inv.write (h : m.Inv) (hr : m.current r.tid = some r) {own : Option Obj}
    {a : Write} {todo : List Write} {value : Option ℕ}
    (hstage : r.stage = .writes own (a :: todo) value) :
    Machine.Inv { m.put { r with stage := .writes own todo value } with rt := a.act m.rt } := by
  have hfits := h.fits r (mem_running hr)
  have hheld : Running.held { r with stage := .writes own todo value } = r.held := by
    unfold Running.held
    rw [hstage]
    cases r.call with
    | malloc | alignedAlloc | calloc | free | stackEnter | stackLeave | store => rfl
  refine h.next (some { r with stage := .writes own todo value }) rfl (forall_mem_some rfl) ?_ h.room
    (fun b hb => ⟨b, hb, rfl, id⟩) (fun x hx _ => hx) ?_ ?_
  · have hobjs := objs_put m { r with stage := .writes own todo value }
    have hperm := objs_perm m r.tid
    rw [hr, Option.bind_some] at hperm
    rw [hheld] at hobjs
    exact h.laid.subperm (hobjs.trans hperm.symm).subperm
  · exact forall_mem_some (hfits.tail hstage)
  · exact forall_mem_some fun r' hr' => (h.beside_rest hr hr').tail hstage

theorem Machine.Inv.ret (h : m.Inv) (done : List Done) :
    Machine.Inv { m with running := m.rest t, done := done } := by
  refine h.next none rfl (by simp) (h.laid_others t) h.room (fun b hb => ⟨b, hb, rfl, id⟩)
    (fun x hx _ => hx) (by simp) (by simp)

/-- Every orderly step keeps the calls apart. -/
theorem Machine.Inv.step (h : m.Inv) (hord : m.Orderly ev) (hstep : mstep m ev = some m') :
    m'.Inv := by
  cases effect_of_mstep hstep with
  | nothing hidle hc => exact h.nothing hc
  | request hidle hc hfresh => exact h.request hidle hc hfresh
  | find hidle hptr => exact h.idle rfl rfl (.find _ rfl rfl hptr)
  | enter hidle hfresh => exact h.enter hfresh
  | leave hidle hv => exact h.leave hv
  | store hidle hopen => exact h.idle_mem _ rfl rfl (.nothing none rfl)
  | record hr hstage hrec => exact h.record hr hstage hrec
  | report hr hstage => exact h.report
  | ignore hr hstage hfree => exact h.ignore hr hstage hfree
  | mark hr hstage hfree => exact h.mark hr hstage hfree hord.late
  | write hr hstage => exact h.write hr hstage
  | ret hr hstage => exact h.ret _

theorem inv_initial (mem : Bytes) : (Machine.initial mem).Inv := by
  refine ⟨List.nodup_nil, ⟨?_, List.Pairwise.nil⟩, ?_, ?_, List.Pairwise.nil⟩
  · simp [Machine.objs, Machine.initial, Rt.initial]
  · simp [Machine.initial, Rt.initial]
  · simp [Machine.initial]

end Effects

end Redzone.Concurrent
