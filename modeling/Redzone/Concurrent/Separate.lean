/-
  Concurrent/Separate.lean --- calls of different threads work on different objects.

  The extents of blocks, of variables, and of the calls that are going to record a block or
  leave a variable are disjoint, and the updates that a call owes are within its object.
  Two calls work on one object only if one of them allocates a block and another one frees
  it already.  In an orderly run the first call then has no update of the shadow left, and
  the other one makes no other update.
-/
import Redzone.Concurrent.Machine

set_option autoImplicit false

namespace Redzone.Concurrent

open Redzone.Foundation
open Redzone.Shadow

/-! ## What a step does -/

/-- The call returns at once, without an object. -/
def Call.Nothing (sys : Sys) : Call → Prop
  | .free ptr => ptr = 0
  | .stackEnter _ | .stackLeave _ | .store _ _ => False
  | c => c.request sys = none

/-- The effects of the steps. -/
inductive Effect (m : Machine) : Event → Machine → Prop
  | nothing {t : ℕ} {c : Call} {sys : Sys} (hidle : m.current t = none) (hc : c.Nothing sys) :
      Effect m (.call t c sys) (m.put ⟨t, c, sys, .writes none [] none⟩)
  | request {t : ℕ} {c : Call} {sys : Sys} {b : Block} (hidle : m.current t = none)
      (hc : c.request sys = some b) (hfresh : m.Fresh b.realBase (b.realBase + b.totalSize)) :
      Effect m (.call t c sys) (m.put ⟨t, c, sys, .record b⟩)
  | find {t ptr : ℕ} {sys : Sys} (hidle : m.current t = none) (hptr : ptr ≠ 0) :
      Effect m (.call t (.free ptr) sys) (m.put ⟨t, .free ptr, sys, .find ptr⟩)
  | enter {t : ℕ} {v : StackVar} {sys : Sys} (hidle : m.current t = none)
      (hfresh : m.Fresh v.base (v.base + v.size + 2 * redzoneSize)) :
      Effect m (.call t (.stackEnter v) sys)
        { m.put ⟨t, .stackEnter v, sys, .writes (some v.obj) (enterWrites v) none⟩ with
          stack := (t, v) :: m.stack }
  | leave {t : ℕ} {v : StackVar} {sys : Sys} (hidle : m.current t = none)
      (hv : (t, v) ∈ m.stack) :
      Effect m (.call t (.stackLeave v) sys)
        { m.put ⟨t, .stackLeave v, sys, .writes (some v.obj) (leaveWrites v) none⟩ with
          stack := m.stack.erase (t, v) }
  | store {t addr : ℕ} {byte : UInt8} {sys : Sys} (hidle : m.current t = none)
      (hopen : bytePoisoned m.rt.shadow addr = false) :
      Effect m (.call t (.store addr byte) sys)
        { m.put ⟨t, .store addr byte, sys, .writes none [] none⟩ with
          rt := { m.rt with mem := Function.update m.rt.mem addr byte } }
  | record {r : Running} {b : Block} {idx : ℕ} {rt : Rt} (hr : m.current r.tid = some r)
      (hstage : r.stage = .record b) (hrec : recordBlock m.rt b r.sys.growOk = .ok (idx, rt)) :
      Effect m (.lock r.tid) { m.put (r.recorded b idx) with rt := rt }
  | report {r : Running} {e : Abort} (hr : m.current r.tid = some r)
      (hstage : (∃ b, r.stage = .record b) ∨
        ∃ ptr, r.stage = .find ptr ∧ lockedFree m.rt ptr = .error e) :
      Effect m (.lock r.tid) (m.put { r with stage := .reported e })
  | ignore {r : Running} {ptr : ℕ} {rt : Rt} (hr : m.current r.tid = some r)
      (hstage : r.stage = .find ptr) (hfree : lockedFree m.rt ptr = .ok (none, rt)) :
      Effect m (.lock r.tid) { m.put r.through with rt := rt }
  | mark {r : Running} {ptr : ℕ} {b : Block} {rt : Rt} (hr : m.current r.tid = some r)
      (hstage : r.stage = .find ptr) (hfree : lockedFree m.rt ptr = .ok (some b, rt)) :
      Effect m (.lock r.tid) { m.put (r.marked b) with rt := rt }
  | write {r : Running} {own : Option Obj} {a : Write} {todo : List Write} {value : Option ℕ}
      (hr : m.current r.tid = some r) (hstage : r.stage = .writes own (a :: todo) value) :
      Effect m (.write r.tid)
        { m.put { r with stage := .writes own todo value } with rt := a.act m.rt }
  | ret {r : Running} {own : Option Obj} {value : Option ℕ} (hr : m.current r.tid = some r)
      (hstage : r.stage = .writes own [] value) :
      Effect m (.ret r.tid)
        { m with running := m.rest r.tid, done := ⟨r.tid, r.call, r.sys, value⟩ :: m.done }

section Effects

variable {m m' : Machine} {t : ℕ} {r : Running} {ev : Event}

theorem current_tid (h : m.current t = some r) : r.tid = t := by
  simpa using List.find?_some h

theorem effect_of_request {c : Call} {sys : Sys} (hidle : m.current t = none)
    (hnothing : c.request sys = none → c.Nothing sys)
    (h : (match c.request sys with
      | none => some (m.put ⟨t, c, sys, .writes none [] none⟩)
      | some b =>
        if m.Fresh b.realBase (b.realBase + b.totalSize) then
          some (m.put ⟨t, c, sys, .record b⟩)
        else none) = some m') : Effect m (.call t c sys) m' := by
  cases hc : c.request sys with
  | none =>
      rw [hc] at h
      obtain rfl := Option.some.inj h
      exact .nothing hidle (hnothing hc)
  | some b =>
      rw [hc] at h
      simp only at h
      split at h
      · rename_i hfresh
        obtain rfl := Option.some.inj h
        exact .request hidle hc hfresh
      · simp at h

theorem effect_of_start {c : Call} {sys : Sys} (hidle : m.current t = none)
    (h : m.start t c sys = some m') : Effect m (.call t c sys) m' := by
  cases c with
  | malloc size file line => exact effect_of_request hidle id h
  | alignedAlloc alignment size file line => exact effect_of_request hidle id h
  | calloc nmemb size file line => exact effect_of_request hidle id h
  | free ptr =>
      simp only [Machine.start] at h
      split at h
      · rename_i hptr
        obtain rfl := Option.some.inj h
        exact .nothing hidle hptr
      · rename_i hptr
        obtain rfl := Option.some.inj h
        exact .find hidle hptr
  | stackEnter v =>
      simp only [Machine.start] at h
      split at h
      · rename_i hfresh
        obtain rfl := Option.some.inj h
        exact .enter hidle hfresh
      · simp at h
  | stackLeave v =>
      simp only [Machine.start] at h
      split at h
      · rename_i hv
        obtain rfl := Option.some.inj h
        exact .leave hidle hv
      · simp at h
  | store addr byte =>
      simp only [Machine.start] at h
      split at h
      · simp at h
      · rename_i hopen
        obtain rfl := Option.some.inj h
        exact .store hidle (by simpa using hopen)

theorem effect_of_lock (hr : m.current r.tid = some r) (h : m.lock r = some m') :
    Effect m (.lock r.tid) m' := by
  unfold Machine.lock at h
  split at h
  · rename_i b hstage
    split at h
    · obtain rfl := Option.some.inj h
      exact .report hr (Or.inl ⟨b, hstage⟩)
    · rename_i idx rt hrec
      obtain rfl := Option.some.inj h
      exact .record hr hstage hrec
  · rename_i ptr hstage
    split at h
    · rename_i e hfree
      obtain rfl := Option.some.inj h
      exact .report hr (Or.inr ⟨ptr, hstage, hfree⟩)
    · rename_i rt hfree
      obtain rfl := Option.some.inj h
      exact .ignore hr hstage hfree
    · rename_i b rt hfree
      obtain rfl := Option.some.inj h
      exact .mark hr hstage hfree
  · simp at h

/-- Every step has one of the effects. -/
theorem effect_of_mstep (h : mstep m ev = some m') : Effect m ev m' := by
  cases ev with
  | call t c sys =>
      simp only [mstep] at h
      split at h
      · simp at h
      · rename_i hidle
        exact effect_of_start hidle h
  | lock t =>
      simp only [mstep] at h
      split at h
      · simp at h
      · rename_i r hr
        obtain rfl := current_tid hr
        exact effect_of_lock hr h
  | write t =>
      simp only [mstep] at h
      split at h
      · simp at h
      · rename_i r hr
        obtain rfl := current_tid hr
        split at h
        · rename_i own a todo value hstage
          obtain rfl := Option.some.inj h
          exact .write hr hstage
        · simp at h
  | ret t =>
      simp only [mstep] at h
      split at h
      · simp at h
      · rename_i r hr
        obtain rfl := current_tid hr
        split at h
        · rename_i own value hstage
          obtain rfl := Option.some.inj h
          exact .ret hr hstage
        · simp at h

end Effects

/-! ## The invariant -/

/-- Where a call is, and what it owes. -/
inductive Machine.Fits (m : Machine) (r : Running) : Prop
  | record (b : Block) (hstage : r.stage = .record b) (hreq : r.call.request r.sys = some b)
      (hroom : b.realBase + redzoneSize ≤ b.userAddr)
  | find (ptr : ℕ) (hstage : r.stage = .find ptr) (hcall : r.call = .free ptr) (hptr : ptr ≠ 0)
  | nothing (value : Option ℕ) (hstage : r.stage = .writes none [] value)
  | alloc (b : Block) (todo : List Write)
      (hstage : r.stage = .writes (some (place b)) todo (some b.userAddr))
      (hcall : ∀ ptr, r.call ≠ .free ptr) (hrec : place b ∈ m.rt.blocks.map place)
      (hwithin : ∀ a ∈ todo, a.Within (place b))
  | free (b : Block) (ptr : ℕ) (todo : List Write)
      (hstage : r.stage = .writes (some (place b)) todo none) (hcall : r.call = .free ptr)
      (hrec : ∃ b' ∈ m.rt.blocks, place b' = place b ∧ b'.freed = true)
      (hwithin : ∀ a ∈ todo, a.Within (place b)) (hshadow : ∀ a ∈ todo, a.OnShadow)
      (hleft : ∀ a ∈ todo, ∀ i, 8 * i < b.userAddr → a.KeepsChunk i)
  | enter (v : StackVar) (todo : List Write) (hstage : r.stage = .writes (some v.obj) todo none)
      (hcall : r.call = .stackEnter v) (hv : (r.tid, v) ∈ m.stack)
      (hwithin : ∀ a ∈ todo, a.Within v.obj) (hshadow : ∀ a ∈ todo, a.OnShadow)
  | leave (v : StackVar) (todo : List Write) (hstage : r.stage = .writes (some v.obj) todo none)
      (hcall : r.call = .stackLeave v) (hwithin : ∀ a ∈ todo, a.Within v.obj)
      (hshadow : ∀ a ∈ todo, a.OnShadow)
  | reported (e : Abort) (hstage : r.stage = .reported e)

/-- One call frees a block that the other one allocates. -/
def Running.Frees (r r' : Running) : Prop :=
  (∃ ptr, r.call = .free ptr) ∧ (∀ a ∈ r.todo, a.OnShadow) ∧ ∀ a ∈ r'.todo, a.OnMem

/-- Two calls do not get into each other's way. -/
def Running.Beside (r r' : Running) : Prop :=
  ∀ o ∈ r.own, ∀ o' ∈ r'.own, Obj.Apart o o' ∨ r.Frees r' ∨ r'.Frees r

/-- Objects that are laid out properly in disjoint extents. -/
structure Laid (l : List Obj) : Prop where
  ok : ∀ o ∈ l, o.OK
  apart : l.Pairwise Obj.Apart

structure Machine.Inv (m : Machine) : Prop where
  tids : (m.running.map Running.tid).Nodup
  laid : Laid m.objs
  room : ∀ b ∈ m.rt.blocks, b.realBase + redzoneSize ≤ b.userAddr
  fits : ∀ r ∈ m.running, m.Fits r
  beside : m.running.Pairwise Running.Beside

section Laid

variable {o o' : Obj} {l l' : List Obj}

theorem Obj.Apart.symm (h : Obj.Apart o o') : Obj.Apart o' o := Or.symm h

instance : Std.Symm Obj.Apart := ⟨fun _ _ h => h.symm⟩

theorem not_apart (h : o.OK) : ¬ Obj.Apart o o := by
  have hle := h.lo_le
  have hule := h.user_le
  have hguard := h.guard
  simp only [redzoneSize] at hguard
  unfold Obj.Apart
  omega

theorem Laid.subperm (h : Laid l) (hsub : l'.Subperm l) : Laid l' := by
  obtain ⟨l'', hp, hs⟩ := hsub
  refine ⟨fun o ho => h.ok o (hs.mem (hp.mem_iff.mpr ho)), ?_⟩
  exact (h.apart.sublist hs).perm hp fun h => h.symm

theorem Laid.cons (h : Laid l) (hok : o.OK) (hapart : ∀ o' ∈ l, Obj.Apart o o') : Laid (o :: l) :=
  ⟨List.forall_mem_cons.mpr ⟨hok, h.ok⟩, List.pairwise_cons.mpr ⟨hapart, h.apart⟩⟩

/-- Objects in one list that are not apart are the same. -/
theorem Laid.eq_or_apart (h : Laid l) (ho : o ∈ l) (ho' : o' ∈ l) : o = o' ∨ Obj.Apart o o' := by
  by_cases heq : o = o'
  · exact Or.inl heq
  · exact Or.inr (h.apart.forall ho ho' heq)

end Laid

/-! ## The running calls -/

section Running

variable {m : Machine} {t : ℕ} {r r' : Running} {o : Obj}

theorem running_perm (m : Machine) (t : ℕ) :
    m.running.Perm ((m.current t).toList ++ m.rest t) := by
  unfold Machine.current Machine.rest
  induction m.running with
  | nil => simp
  | cons r l ih =>
      by_cases h : r.tid = t
      · simp [h]
      · rw [List.find?_cons_of_neg (by simpa using h), List.eraseP_cons_of_neg (by simpa using h)]
        exact (ih.cons r).trans List.perm_middle.symm

theorem mem_running (h : m.current t = some r) : r ∈ m.running := List.mem_of_find?_eq_some h

theorem mem_rest (h : r ∈ m.rest t) : r ∈ m.running := List.mem_of_mem_eraseP h

theorem Machine.Inv.rest_tid (h : m.Inv) (hr : r ∈ m.rest t) : r.tid ≠ t := by
  intro htid
  have hnodup := ((running_perm m t).map Running.tid).nodup_iff.mp h.tids
  cases hcur : m.current t with
  | none =>
      have hnone := List.find?_eq_none.mp hcur r (mem_rest hr)
      exact hnone (by simpa using htid)
  | some r' =>
      rw [hcur] at hnodup
      simp only [Option.toList_some, List.singleton_append, List.map_cons, List.nodup_cons] at hnodup
      refine hnodup.1 ?_
      rw [(current_tid hcur).trans htid.symm]
      exact List.mem_map_of_mem hr

theorem Running.Beside.symm (h : r.Beside r') : r'.Beside r := by
  intro o ho o' ho'
  rcases h o' ho' o ho with hapart | hfrees | hfrees
  · exact Or.inl hapart.symm
  · exact Or.inr (Or.inr hfrees)
  · exact Or.inr (Or.inl hfrees)

instance : Std.Symm Running.Beside := ⟨fun _ _ h => h.symm⟩

/-- A call does not get into the way of the calls of other threads. -/
theorem Machine.Inv.beside_rest (h : m.Inv) (hr : m.current t = some r) (hr' : r' ∈ m.rest t) :
    r.Beside r' := by
  have hpair := h.beside.perm (running_perm m t) fun h => h.symm
  rw [hr] at hpair
  exact (List.pairwise_cons.mp hpair).1 r' hr'

/-- The objects besides the one that thread `t` holds. -/
def Machine.others (m : Machine) (t : ℕ) : List Obj :=
  m.rt.blocks.map place ++ (m.stack.map (fun x => x.2.obj) ++ (m.rest t).filterMap Running.held)

theorem filterMap_perm {α : Type} (f : Running → Option α) (m : Machine) (t : ℕ) :
    (m.running.filterMap f).Perm (((m.current t).bind f).toList ++ (m.rest t).filterMap f) := by
  refine ((running_perm m t).filterMap f).trans ?_
  rw [List.filterMap_append]
  cases m.current t with
  | none => simp
  | some r => cases hr : f r <;> simp [hr]

theorem objs_perm (m : Machine) (t : ℕ) :
    m.objs.Perm (((m.current t).bind Running.held).toList ++ m.others t) := by
  unfold Machine.objs Machine.others
  refine (((filterMap_perm Running.held m t).append_left _).append_left _).trans ?_
  refine ((List.perm_append_comm_assoc _ _ _).append_left _).trans ?_
  exact List.perm_append_comm_assoc _ _ _

/-- A call that is going to record a block. -/
theorem Machine.Fits.of_record (h : m.Fits r) {b : Block} (hstage : r.stage = .record b) :
    r.call.request r.sys = some b ∧ b.realBase + redzoneSize ≤ b.userAddr := by
  cases h with
  | record b' hstage' hreq hroom =>
      obtain rfl := Stage.record.inj (hstage.symm.trans hstage')
      exact ⟨hreq, hroom⟩
  | find _ hstage' => simp [hstage] at hstage'
  | nothing _ hstage' => simp [hstage] at hstage'
  | alloc _ _ hstage' => simp [hstage] at hstage'
  | free _ _ _ hstage' => simp [hstage] at hstage'
  | enter _ _ hstage' => simp [hstage] at hstage'
  | leave _ _ hstage' => simp [hstage] at hstage'
  | reported _ hstage' => simp [hstage] at hstage'

/-- A call that is going to look up a pointer. -/
theorem Machine.Fits.of_find (h : m.Fits r) {ptr : ℕ} (hstage : r.stage = .find ptr) :
    r.call = .free ptr ∧ ptr ≠ 0 := by
  cases h with
  | find ptr' hstage' hcall hptr =>
      obtain rfl := Stage.find.inj (hstage.symm.trans hstage')
      exact ⟨hcall, hptr⟩
  | record _ hstage' => simp [hstage] at hstage'
  | nothing _ hstage' => simp [hstage] at hstage'
  | alloc _ _ hstage' => simp [hstage] at hstage'
  | free _ _ _ hstage' => simp [hstage] at hstage'
  | enter _ _ hstage' => simp [hstage] at hstage'
  | leave _ _ hstage' => simp [hstage] at hstage'
  | reported _ hstage' => simp [hstage] at hstage'

/-- Where the object of a call is. -/
theorem Machine.Fits.own_mem (h : m.Fits r) (ho : o ∈ r.own) :
    o ∈ m.rt.blocks.map place ∨ (∃ v, o = v.obj ∧ (r.tid, v) ∈ m.stack) ∨ r.held = some o := by
  unfold Running.own at ho
  cases h with
  | record b hstage | find ptr hstage | reported e hstage =>
      rw [hstage] at ho
      simp at ho
  | nothing value hstage =>
      rw [hstage] at ho
      simp at ho
  | alloc b todo hstage hcall hrec =>
      rw [hstage] at ho
      obtain rfl := Option.some.inj ho
      exact Or.inl hrec
  | free b ptr todo hstage hcall hrec =>
      rw [hstage] at ho
      obtain rfl := Option.some.inj ho
      obtain ⟨b', hb', hplace, -⟩ := hrec
      rw [← hplace]
      exact Or.inl (List.mem_map_of_mem hb')
  | enter v todo hstage hcall hv =>
      rw [hstage] at ho
      obtain rfl := Option.some.inj ho
      exact Or.inr (Or.inl ⟨v, rfl, hv⟩)
  | leave v todo hstage hcall =>
      rw [hstage] at ho
      obtain rfl := Option.some.inj ho
      refine Or.inr (Or.inr ?_)
      unfold Running.held
      rw [hstage, hcall]

/-- The object of a call is one of the objects. -/
theorem Machine.Fits.own_objs (h : m.Fits r) (hr : r ∈ m.running) (ho : o ∈ r.own) :
    o ∈ m.objs := by
  rcases h.own_mem ho with hblock | ⟨v, rfl, hv⟩ | hheld
  · exact List.mem_append_left _ hblock
  · apply List.mem_append_right
    apply List.mem_append_left
    exact List.mem_map.mpr ⟨_, hv, rfl⟩
  · apply List.mem_append_right
    apply List.mem_append_right
    exact List.mem_filterMap.mpr ⟨r, hr, hheld⟩

/-- The updates of a call are within its object. -/
theorem Machine.Fits.within (h : m.Fits r) {a : Write} (ha : a ∈ r.todo) :
    ∃ o ∈ r.own, a.Within o := by
  unfold Running.todo at ha
  unfold Running.own
  cases h with
  | record b hstage | find ptr hstage | reported e hstage =>
      rw [hstage] at ha
      simp at ha
  | nothing value hstage =>
      rw [hstage] at ha
      simp at ha
  | alloc b todo hstage hcall hrec hwithin | free b ptr todo hstage hcall hrec hwithin =>
      rw [hstage] at ha ⊢
      exact ⟨place b, rfl, hwithin a ha⟩
  | enter v todo hstage hcall hv hwithin | leave v todo hstage hcall hwithin =>
      rw [hstage] at ha ⊢
      exact ⟨v.obj, rfl, hwithin a ha⟩

/-- The updates of calls that do not get into each other's way commute. -/
theorem Running.Beside.independent (h : r.Beside r') (hr : m.Fits r) (hr' : m.Fits r') :
    Independent Write.act r.todo r'.todo := by
  intro a ha b hb
  obtain ⟨o, ho, hwa⟩ := hr.within ha
  obtain ⟨o', ho', hwb⟩ := hr'.within hb
  rcases h o ho o' ho' with hapart | ⟨-, hshadow, hmem⟩ | ⟨-, hshadow, hmem⟩
  · exact hwa.commutes hwb hapart
  · exact commutes_of_kinds (hshadow a ha) (hmem b hb)
  · exact (commutes_of_kinds (hshadow b hb) (hmem a ha)).symm

/-- The object is apart from everything that is not of thread `t`. -/
structure Machine.Clear (m : Machine) (t : ℕ) (o : Obj) : Prop where
  blocks : ∀ o' ∈ m.rt.blocks.map place, Obj.Apart o o'
  stack : ∀ x ∈ m.stack, x.1 ≠ t → Obj.Apart o x.2.obj
  held : ∀ r ∈ m.rest t, ∀ o' ∈ r.held, Obj.Apart o o'

/-- Such an object is apart from the objects of the other calls. -/
theorem Machine.Clear.own (h : m.Clear t o) (hinv : m.Inv) (hr : r ∈ m.rest t) {o' : Obj}
    (ho' : o' ∈ r.own) : Obj.Apart o o' := by
  rcases (hinv.fits r (mem_rest hr)).own_mem ho' with hblock | ⟨v, rfl, hv⟩ | hheld
  · exact h.blocks o' hblock
  · exact h.stack _ hv (hinv.rest_tid hr)
  · exact h.held r hr o' hheld

/-- What is apart from all other objects is clear. -/
theorem clear_of_others (h : ∀ o' ∈ m.others t, Obj.Apart o o') : m.Clear t o := by
  unfold Machine.others at h
  refine ⟨fun o' ho' => h o' (List.mem_append_left _ ho'), fun x hx _ => ?_, fun r hr o' ho' => ?_⟩
  · apply h
    apply List.mem_append_right
    apply List.mem_append_left
    exact List.mem_map_of_mem hx
  · apply h
    apply List.mem_append_right
    apply List.mem_append_right
    exact List.mem_filterMap.mpr ⟨r, hr, ho'⟩

theorem Machine.Inv.clear_of_held (h : m.Inv) (hr : m.current t = some r) (ho : r.held = some o) :
    m.Clear t o := by
  have hlaid := h.laid.subperm (objs_perm m t).symm.subperm
  rw [hr, Option.bind_some, ho] at hlaid
  exact clear_of_others (List.pairwise_cons.mp hlaid.apart).1

theorem clear_of_fresh (hlo : ∀ o' ∈ m.objs, Obj.Apart o o') :
    m.Clear t o := by
  apply clear_of_others
  intro o' ho'
  apply hlo
  exact (objs_perm m t).mem_iff.mpr (List.mem_append_right _ ho')

theorem Machine.Inv.clear_of_stack (h : m.Inv) {v : StackVar} (hv : (t, v) ∈ m.stack) :
    m.Clear t v.obj := by
  have hapart := h.laid.apart
  unfold Machine.objs at hapart
  obtain ⟨-, hstack, hblocks⟩ := List.pairwise_append.mp hapart
  obtain ⟨hvars, -, hcross⟩ := List.pairwise_append.mp hstack
  have hmem : v.obj ∈ m.stack.map fun x => x.2.obj := List.mem_map.mpr ⟨(t, v), hv, rfl⟩
  refine ⟨fun o' ho' => ?_, fun x hx hne => ?_, fun r hr o' ho' => ?_⟩
  · exact (hblocks o' ho' v.obj (List.mem_append_left _ hmem)).symm
  · refine (List.pairwise_map.mp hvars).forall hv hx ?_
    rintro rfl
    exact hne rfl
  · exact hcross v.obj hmem o' (List.mem_filterMap.mpr ⟨r, mem_rest hr, ho'⟩)

end Running

end Redzone.Concurrent
