/-
  Concurrent/LockFree.lean --- the updates need no lock.

  When no call is under way any more, the state is that of a sequential run of the same
  calls with the same results.  No step changes the shadow or the header of an object that
  its call does not own.  And of the calls that free one block, in whatever order they look
  it up, the first one succeeds and every other one reports a double free.

  All this is about orderly runs.  `rz_allocate` counts on its block being unknown to other
  threads until it returns; a free that comes earlier may find bytes in place of the header
  that have been left there, and then its poison is painted over.
-/
import Redzone.Concurrent.Sequential

set_option autoImplicit false

namespace Redzone.Concurrent

open Redzone.Foundation
open Redzone.Shadow

/-! ## Steps change the objects of their calls only -/

/-- The object that thread `t` works on. -/
def Machine.Owns (m : Machine) (t : ℕ) (o : Obj) : Prop := ∃ r ∈ m.current t, r.own = some o

/-- The event is a store to `x`. -/
def Event.StoresTo (ev : Event) (x : ℕ) : Prop :=
  ∃ t byte sys, ev = .call t (.store x byte) sys

/-- The shadow of the object, its header and its other bytes are as before, except for a
user byte that the program stores. -/
def Untouched (ev : Event) (s s' : Rt) (o : Obj) : Prop :=
  ∀ x, o.lo ≤ x → x < o.top → shadowLoad s'.shadow x = shadowLoad s.shadow x ∧
    (s'.mem x = s.mem x ∨ ev.StoresTo x ∧ o.userLo ≤ x ∧ x < o.userHi)

section Frame

variable {mem : Bytes} {m m' : Machine} {t : ℕ} {r : Running} {ev : Event} {ds : List Done}
  {w : World} {o o' : Obj} {a : Write} {s s' : Rt}

theorem untouched_of_eq (hshadow : s'.shadow = s.shadow) (hmem : s'.mem = s.mem) :
    Untouched ev s s' o := by
  intro x _ _
  rw [hshadow, hmem]
  exact ⟨rfl, Or.inl rfl⟩

/-- An update within an object leaves the others alone. -/
theorem Write.Within.untouched (h : a.Within o') (hal : o.lo % 16 = 0) (hapart : Obj.Apart o o') :
    Untouched ev s (a.act s) o := by
  intro x hlo hhi
  unfold Obj.Apart at hapart
  refine ⟨?_, Or.inl (h.bytes x (by omega) s.mem)⟩
  have hkeeps := h.chunks (x / 8) (by omega) s.shadow
  unfold shadowLoad
  exact if_congr Iff.rfl hkeeps rfl

/-- An addressable byte in the extent of an object, on which no running call works, is one
of its user bytes. -/
theorem Simulates.user_of_open (h : Simulates mem m ds w) (hinv : m.Inv) {addr : ℕ}
    {byte : UInt8} {sys : Sys} (hopen : bytePoisoned m.rt.shadow addr = false)
    (hcalm : m.Calm (.call t (.store addr byte) sys)) (ho : o ∈ m.objs) (hlo : o.lo ≤ addr)
    (hhi : addr < o.top) : o.userLo ≤ addr ∧ addr < o.userHi := by
  have hround : addr < roundUp8 o.top := by
    simp only [roundUp8]
    omega
  rw [h.bytePoisoned_eq fun r hr a ha => (hinv.keeps_calm hcalm hr ha).1] at hopen
  have huser : ∀ o' ∈ w.objs, o'.region.Mem addr → o'.region.User addr := by
    intro o' ho' hmem
    by_contra hnot
    rw [((intact_of_seq h.seq).inv.poisoned_of_mem ho' hmem).mpr hnot] at hopen
    simp at hopen
  rcases List.mem_append.mp ho with hblock | hrest
  · obtain ⟨b, hb, rfl⟩ := List.mem_map.mp hblock
    rw [← settle_blocks, h.rt] at hb
    exact (huser b.obj (World.mem_objs.mpr (Or.inl ⟨b, hb, rfl⟩)) ⟨hlo, hround⟩).2
  · rcases List.mem_append.mp hrest with hvar | hheld
    · obtain ⟨x, hx, rfl⟩ := List.mem_map.mp hvar
      have hmem : x.2 ∈ w.stack := h.stack.subset (List.mem_map_of_mem hx)
      exact (huser x.2.obj (World.mem_objs.mpr (Or.inr (Or.inl ⟨x.2, hmem, rfl⟩)))
        ⟨hlo, hround⟩).2
    · obtain ⟨r, hr, hheld⟩ := List.mem_filterMap.mp hheld
      refine absurd ⟨hlo, hround⟩ (hcalm r hr o (List.mem_append_right _ ?_))
      exact Option.mem_toList.mpr hheld

theorem Simulates.untouched (hsim : Simulates mem m ds w) (h : m.Inv) (hcalm : m.Calm ev)
    (hstep : mstep m ev = some m') (ho : o ∈ m.objs) (hnot : ¬ m.Owns ev.tid o) :
    Untouched ev m.rt m'.rt o := by
  cases effect_of_mstep hstep with
  | nothing | request | find | enter | leave | report | ret => exact untouched_of_eq rfl rfl
  | store hidle hopen =>
      rename_i t addr byte sys
      intro x hlo hhi
      refine ⟨rfl, ?_⟩
      by_cases hx : x = addr
      · subst hx
        exact Or.inr ⟨⟨t, byte, sys, rfl⟩, hsim.user_of_open h hopen hcalm ho hlo hhi⟩
      · exact Or.inl (Function.update_of_ne hx ..)
  | record hr hstage hrec =>
      obtain ⟨-, -, hshadow, hmem⟩ := recordBlock_ok hrec
      exact untouched_of_eq hshadow hmem
  | ignore hr hstage hfree =>
      obtain ⟨rfl, -, -⟩ := lockedFree_none hfree
      exact untouched_of_eq rfl rfl
  | mark hr hstage hfree =>
      obtain ⟨i, -, -, -, -, rfl⟩ := lockedFree_some hfree
      exact untouched_of_eq rfl rfl
  | write hr hstage =>
      rename_i r own a todo value
      have hmem := mem_running hr
      have ha : a ∈ r.todo := by
        unfold Running.todo
        rw [hstage]
        exact List.mem_cons_self ..
      obtain ⟨o', ho', hwithin⟩ := (h.fits r hmem).within ha
      rcases h.laid.eq_or_apart ho ((h.fits r hmem).own_objs hmem ho') with rfl | hapart
      · exact absurd ⟨r, hr, ho'⟩ hnot
      · exact hwithin.untouched (h.laid.ok o ho).lo_aligned hapart

end Frame

/-! ## A block is freed once -/

/-- The call that has allocated the block has returned. -/
def Machine.Published (m : Machine) (b : Block) : Prop :=
  ∀ r ∈ m.running, r.own = some (place b) → ∃ ptr, r.call = .free ptr

/-- The event is the lookup of a call of `free` with pointer `ptr`. -/
def Machine.looksUp (m : Machine) (ptr : ℕ) : Event → Bool
  | .lock t => (m.current t).any fun r => r.stage = .find ptr
  | _ => false

/-- How a call of `free` ends. -/
inductive Outcome where
  | frees
  | ignores
  | reports (e : Abort)
  deriving DecidableEq

/-- How the call that thread `t` executes has come out of its lookup. -/
def Machine.outcome (m : Machine) (t : ℕ) : Outcome :=
  match (m.current t).map Running.stage with
  | some (.reported e) => .reports e
  | some (.writes (some _) _ _) => .frees
  | _ => .ignores

/-- How the calls of `free` with pointer `ptr` end, in the order of their lookups. -/
def verdicts (ptr : ℕ) : Machine → List Event → List Outcome
  | _, [] => []
  | m, ev :: es =>
    match mstep m ev with
    | none => []
    | some m' => (if m.looksUp ptr ev then [m'.outcome ev.tid] else []) ++ verdicts ptr m' es

/-- The calls of `free` with pointer `ptr` that have not looked it up yet. -/
def Machine.pending (m : Machine) (ptr : ℕ) : ℕ :=
  m.running.countP fun r => r.stage = .find ptr

def Event.frees (ptr : ℕ) : Event → Bool
  | .call _ (.free p) _ => p = ptr
  | _ => false

section Once

variable {mem : Bytes} {m m' : Machine} {r : Running} {ev : Event} {ds : List Done} {w : World}
  {b : Block} {i ptr : ℕ}

theorem blockFromUserPtr_congr {s s' : Rt} {u : ℕ} (hblocks : s'.blocks = s.blocks)
    (hshadow : shadowLoad s'.shadow (u - 8) = shadowLoad s.shadow (u - 8)) (hu : 16 ≤ u)
    (hmem : ∀ x, u - 16 ≤ x → x < u → s'.mem x = s.mem x) :
    blockFromUserPtr s' u = blockFromUserPtr s u := by
  unfold blockFromUserPtr
  rw [hblocks, hshadow, load64_congr s.mem (u - headerSize) fun x hlo hhi => hmem x hlo
    (by simp only [headerSize] at hhi; omega), load64_congr s.mem (u - 8) fun x hlo hhi =>
    hmem x (by omega) (by omega)]

/-- No update that is owed touches the left red zone of a published block. -/
theorem Machine.Inv.keeps_left (h : m.Inv) (hb : b ∈ m.rt.blocks) (hpub : m.Published b)
    (hr : r ∈ m.running) {a : Write} (ha : a ∈ r.todo) {x : ℕ} (hlo : b.realBase ≤ x)
    (hhi : x < b.userAddr) : a.KeepsChunk (x / 8) ∧ a.KeepsByte x := by
  have hobj : place b ∈ m.objs := List.mem_append_left _ (List.mem_map_of_mem hb)
  have hok := h.laid.ok _ hobj
  obtain ⟨o, ho, hwithin⟩ := (h.fits r hr).within ha
  rcases h.laid.eq_or_apart hobj ((h.fits r hr).own_objs hr ho) with rfl | hapart
  · rcases h.own_block hr hb ho with hcall | ⟨-, -, hshadow, hleft⟩
    · obtain ⟨ptr, hptr⟩ := hpub r hr ho
      exact absurd hptr (hcall ptr)
    · exact ⟨hleft a ha (x / 8) (by omega), hshadow a ha x⟩
  · have hal := hok.lo_aligned
    have hule := hok.user_le
    have hguard := hok.guard
    simp only [place, Block.obj, Obj.Apart] at hal hule hguard hapart
    exact ⟨hwithin.chunks (x / 8) (by omega), hwithin.bytes x (by omega)⟩

/-- A published block is found by its header. -/
theorem Machine.Inv.found (h : m.Inv) (hsim : Simulates mem m ds w) (hi : m.rt.blocks[i]? = some b)
    (hpub : m.Published b) : blockFromUserPtr m.rt b.userAddr = some i := by
  have hb := List.mem_of_getElem? hi
  have hroom := h.room b hb
  have hok := h.laid.ok _ (List.mem_append_left _ (List.mem_map_of_mem hb))
  have hule := hok.user_le
  have hguard := hok.guard
  have htop := hok.top_le
  simp only [place, Block.obj, redzoneSize] at hule hguard htop hroom
  have hblocks : w.rt.blocks = m.rt.blocks := by rw [← hsim.rt, settle_blocks]
  have hfound : blockFromUserPtr w.rt b.userAddr = some i := by
    apply (intact_of_seq hsim.seq).lookup_iff.mpr
    rw [hblocks]
    exact ⟨b, hi, rfl⟩
  rw [← hfound]
  apply Eq.symm
  have hshadow : w.rt.shadow ((b.userAddr - 8) / 8) = m.rt.shadow ((b.userAddr - 8) / 8) := by
    rw [← hsim.rt]
    refine settle_congr (f := fun s : Rt => s.shadow ((b.userAddr - 8) / 8)) ?_
    intro todo htodo a ha s
    obtain ⟨r, hr, rfl⟩ := List.mem_map.mp htodo
    exact (h.keeps_left hb hpub hr ha (by omega) (by omega)).1 s.shadow
  apply blockFromUserPtr_congr hblocks
  · unfold shadowLoad
    exact if_congr Iff.rfl hshadow rfl
  · omega
  · intro x hlo hhi
    rw [← hsim.rt]
    refine settle_congr (f := fun s : Rt => s.mem x) ?_
    intro todo htodo a ha s
    obtain ⟨r, hr, rfl⟩ := List.mem_map.mp htodo
    exact (h.keeps_left hb hpub hr ha (by omega) hhi).2 s.mem

/-- A lookup that finds a block by its header. -/
theorem lockedFree_of_found {s : Rt} (hfound : blockFromUserPtr s ptr = some i)
    (hi : s.blocks[i]? = some b) : lockedFree s ptr =
      if b.freed then .error (.freeError "double-free" ptr)
      else .ok (some b, { s with blocks := s.blocks.set i { b with freed := true } }) := by
  unfold lockedFree
  rw [hfound]
  simp only [hi]

/-- A lookup of `ptr` is the step of a call of `free`. -/
theorem looksUp_iff : m.looksUp ptr ev = true ↔
    ∃ r, ev = .lock r.tid ∧ m.current r.tid = some r ∧ r.stage = .find ptr := by
  cases ev with
  | call | write | ret => simp [Machine.looksUp]
  | lock t =>
      show (m.current t).any _ = true ↔ _
      cases hcur : m.current t with
      | none =>
          refine iff_of_false (by simp) ?_
          rintro ⟨r, hev, hr, -⟩
          obtain rfl := Event.lock.inj hev
          simp [hcur] at hr
      | some r =>
          obtain rfl := current_tid hcur
          rw [Option.any_some, decide_eq_true_eq]
          constructor
          · exact fun hstage => ⟨r, rfl, hcur, hstage⟩
          · rintro ⟨r', hev, hr', hstage⟩
            rw [← Event.lock.inj hev, hcur] at hr'
            obtain rfl := Option.some.inj hr'
            exact hstage

/-- The block stays published when the object that a call gets is another one. -/
theorem Machine.Published.put (h : m.Published b) {b' : Block} (hplace : place b' = place b)
    (hrun : ∀ r' ∈ m'.running, r' = r ∨ r' ∈ m.running)
    (hown : r.own = some (place b) → ∃ ptr, r.call = .free ptr) : m'.Published b' := by
  intro r' hr' ho'
  rw [hplace] at ho'
  rcases hrun r' hr' with rfl | hold
  · exact hown ho'
  · exact h r' hold ho'

/-- What a step means for a published block: it stays where it is, and only a lookup of its
pointer, which then succeeds, marks it as freed. -/
structure Kept (m m' : Machine) (ev : Event) (i : ℕ) (b b' : Block) : Prop where
  entry : m'.rt.blocks[i]? = some b'
  place : place b' = place b
  published : m'.Published b'
  freed : b'.freed = (b.freed || m.looksUp b.userAddr ev)

/-- A step that leaves the table alone, and gives no call the block. -/
theorem kept_of_blocks (hi : m.rt.blocks[i]? = some b) (hpub : m.Published b)
    (hblocks : m'.rt.blocks = m.rt.blocks) (hrun : ∀ r' ∈ m'.running, r' = r ∨ r' ∈ m.running)
    (hown : r.own = some (place b) → ∃ ptr, r.call = .free ptr)
    (hlook : m.looksUp b.userAddr ev = true → b.freed = true) : Kept m m' ev i b b := by
  refine ⟨?_, rfl, hpub.put rfl hrun hown, ?_⟩
  · rw [hblocks]
    exact hi
  · cases hfreed : b.freed with
    | true => rfl
    | false =>
        rw [hfreed] at hlook
        simpa using hlook

theorem mem_put {r' : Running} (h : r' ∈ (m.put r).running) : r' = r ∨ r' ∈ m.running := by
  rcases List.mem_cons.mp h with hr | hr
  · exact Or.inl hr
  · exact Or.inr (mem_rest hr)

/-- The lookup of the call that thread `r.tid` executes. -/
theorem looksUp_lock (hr : m.current r.tid = some r) :
    m.looksUp ptr (.lock r.tid) = decide (r.stage = .find ptr) := by
  rw [Machine.looksUp, hr]
  rfl

/-- An object that is apart from the blocks is not a block's. -/
theorem Machine.Inv.not_block {o : Obj} (h : m.Inv) (hb : b ∈ m.rt.blocks)
    (hapart : Obj.Apart o (place b)) (hown : some o = some (place b)) : False := by
  have hok := h.laid.ok _ (List.mem_append_left _ (List.mem_map_of_mem hb))
  rw [Option.some.inj hown] at hapart
  exact not_apart hok hapart

theorem Machine.Inv.kept_record {rt : Rt} {b' : Block} {idx : ℕ} (h : m.Inv)
    (hi : m.rt.blocks[i]? = some b) (hpub : m.Published b) (hr : m.current r.tid = some r)
    (hstage : r.stage = .record b') (hrec : recordBlock m.rt b' r.sys.growOk = .ok (idx, rt)) :
    Kept m { m.put (r.recorded b' idx) with rt := rt } (.lock r.tid) i b b := by
  have hb := List.mem_of_getElem? hi
  have hheld : r.held = some (place b') := by
    unfold Running.held
    rw [hstage]
  refine ⟨?_, rfl, hpub.put rfl (fun _ => mem_put) fun hown => ?_, ?_⟩
  · show rt.blocks[i]? = some b
    rw [(recordBlock_ok hrec).2.1, List.getElem?_append_left (List.getElem?_eq_some_iff.mp hi).1]
    exact hi
  · have hapart := (h.clear_of_held hr hheld).blocks _ (List.mem_map_of_mem hb)
    exact (h.not_block hb hapart hown).elim
  · simp [looksUp_lock hr, hstage]

/-- A lookup of the block that reports something finds it freed. -/
theorem freed_of_report {e : Abort} (hfound : blockFromUserPtr m.rt b.userAddr = some i)
    (hi : m.rt.blocks[i]? = some b) (hr : m.current r.tid = some r)
    (hstage : (∃ b', r.stage = .record b') ∨
      ∃ ptr, r.stage = .find ptr ∧ lockedFree m.rt ptr = .error e)
    (hlook : m.looksUp b.userAddr (.lock r.tid) = true) : b.freed = true := by
  rw [looksUp_lock hr, decide_eq_true_eq] at hlook
  rcases hstage with ⟨b', hstage⟩ | ⟨ptr, hstage, hfree⟩
  · simp [hlook] at hstage
  · obtain rfl := Stage.find.inj (hlook.symm.trans hstage)
    rw [lockedFree_of_found hfound hi] at hfree
    cases hfreed : b.freed with
    | true => rfl
    | false => simp [hfreed] at hfree

/-- A free that goes through marks the block that it looks up, and no other one. -/
theorem Machine.Inv.kept_mark {rt : Rt} {b' : Block} {ptr : ℕ} (h : m.Inv)
    (hfound : blockFromUserPtr m.rt b.userAddr = some i) (hi : m.rt.blocks[i]? = some b)
    (hpub : m.Published b) (hr : m.current r.tid = some r) (hstage : r.stage = .find ptr)
    (hfree : lockedFree m.rt ptr = .ok (some b', rt)) :
    ∃ b'', Kept m { m.put (r.marked b') with rt := rt } (.lock r.tid) i b b'' := by
  obtain ⟨j, hj, hb', huser, hlive, rfl⟩ := lockedFree_some hfree
  have hcall := ((h.fits r (mem_running hr)).of_find hstage).1
  by_cases hij : j = i
  · subst hij
    obtain rfl := Option.some.inj (hb'.symm.trans hi)
    refine ⟨{ b' with freed := true }, ?_, rfl, hpub.put rfl (fun _ => mem_put) ?_, ?_⟩
    · exact List.getElem?_set_self (List.getElem?_eq_some_iff.mp hi).1
    · exact fun _ => ⟨ptr, hcall⟩
    · simp [looksUp_lock hr, hstage, huser]
  · have hne : ptr ≠ b.userAddr := by
      rintro rfl
      rw [hfound] at hj
      exact hij (Option.some.inj hj).symm
    refine ⟨b, ?_, rfl, hpub.put rfl (fun _ => mem_put) fun _ => ⟨ptr, hcall⟩, ?_⟩
    · show (m.rt.blocks.set j { b' with freed := true })[i]? = some b
      rw [List.getElem?_set_ne hij]
      exact hi
    · simp [looksUp_lock hr, hstage, hne]

theorem Machine.Inv.kept (h : m.Inv) (hsim : Simulates mem m ds w) (hi : m.rt.blocks[i]? = some b)
    (hpub : m.Published b) (hstep : mstep m ev = some m') : ∃ b', Kept m m' ev i b b' := by
  have hb := List.mem_of_getElem? hi
  have hfound := h.found hsim hi hpub
  cases effect_of_mstep hstep with
  | nothing | request | find | store =>
      exact ⟨b, kept_of_blocks hi hpub rfl (fun _ => mem_put) (by simp [Running.own])
        (by simp [Machine.looksUp])⟩
  | enter hidle hfresh =>
      rename_i t v sys
      refine ⟨b, kept_of_blocks hi hpub rfl (fun _ => mem_put) (fun hown => ?_)
        (by simp [Machine.looksUp])⟩
      have hobj : place b ∈ m.objs := List.mem_append_left _ (List.mem_map_of_mem hb)
      exact (h.not_block hb (hfresh.apart (o := v.obj) rfl rfl (place b) hobj) hown).elim
  | leave hidle hv =>
      rename_i t v sys
      refine ⟨b, kept_of_blocks hi hpub rfl (fun _ => mem_put) (fun hown => ?_)
        (by simp [Machine.looksUp])⟩
      have hapart := (h.clear_of_stack hv).blocks _ (List.mem_map_of_mem hb)
      exact (h.not_block hb hapart hown).elim
  | record hr hstage hrec => exact ⟨b, h.kept_record hi hpub hr hstage hrec⟩
  | report hr hstage =>
      exact ⟨b, kept_of_blocks hi hpub rfl (fun _ => mem_put) (by simp [Running.own])
        (freed_of_report hfound hi hr hstage)⟩
  | ignore hr hstage hfree =>
      rename_i r ptr rt
      obtain ⟨rfl, hnone, -⟩ := lockedFree_none hfree
      refine ⟨b, kept_of_blocks hi hpub rfl (fun _ => mem_put)
        (by simp [Running.own, Running.through]) fun hlook => ?_⟩
      rw [looksUp_lock hr, decide_eq_true_eq] at hlook
      obtain rfl := Stage.find.inj (hlook.symm.trans hstage)
      rw [hfound] at hnone
      simp at hnone
  | mark hr hstage hfree => exact h.kept_mark hfound hi hpub hr hstage hfree
  | write hr hstage =>
      rename_i r own a todo value
      refine ⟨b, kept_of_blocks hi hpub rfl (fun _ => mem_put) (fun hown => ?_)
        (by simp [Machine.looksUp])⟩
      apply hpub r (mem_running hr)
      unfold Running.own at hown ⊢
      rw [hstage]
      exact hown
  | ret hr hstage =>
      rename_i r own value
      refine ⟨b, kept_of_blocks (r := r) hi hpub rfl (fun r' hr' => Or.inr (mem_rest hr')) ?_
        (by simp [Machine.looksUp])⟩
      exact hpub r (mem_running hr)

/-- How a lookup of a published block ends. -/
theorem Machine.Inv.outcome_eq (h : m.Inv) (hsim : Simulates mem m ds w)
    (hi : m.rt.blocks[i]? = some b) (hpub : m.Published b)
    (hlook : m.looksUp b.userAddr ev = true) (hstep : mstep m ev = some m') :
    m'.outcome ev.tid =
      if b.freed then .reports (.freeError "double-free" b.userAddr) else .frees := by
  obtain ⟨r, rfl, hr, hstage⟩ := looksUp_iff.mp hlook
  simp only [mstep, hr, Machine.lock, hstage, lockedFree_of_found (h.found hsim hi hpub) hi]
    at hstep
  cases hfreed : b.freed with
  | true =>
      simp only [hfreed, if_true] at hstep
      obtain rfl := Option.some.inj hstep
      simp [Machine.outcome, Machine.current, Machine.put, Event.tid]
  | false =>
      simp only [hfreed, Bool.false_eq_true, if_false] at hstep
      obtain rfl := Option.some.inj hstep
      simp [Machine.outcome, Machine.current, Machine.put, Event.tid, Running.marked]

/-- The outcomes of `n` lookups of one block: the first one frees it, and every other one
reports a double free. -/
def freedOnce (ptr : ℕ) : ℕ → List Outcome
  | 0 => []
  | n + 1 => .frees :: List.replicate n (.reports (.freeError "double-free" ptr))

theorem length_freedOnce (ptr n : ℕ) : (freedOnce ptr n).length = n := by
  cases n with
  | zero => rfl
  | succ n => simp [freedOnce]

/-- After the block has been freed, every lookup reports a double free. -/
theorem Machine.Inv.verdicts_of_freed {es : List Event} {n : Machine} (h : m.Inv)
    (hsim : Simulates mem m ds w) (hi : m.rt.blocks[i]? = some b) (hpub : m.Published b)
    (hfreed : b.freed = true) (hrun : run mstep m es = some n)
    (hord : EveryStep mstep Machine.Orderly m es) :
    ∃ k, verdicts b.userAddr m es =
      List.replicate k (.reports (.freeError "double-free" b.userAddr)) := by
  induction es generalizing m ds w b with
  | nil => exact ⟨0, rfl⟩
  | cons ev es ih =>
      rw [run_cons] at hrun
      obtain ⟨m', hstep, hrest⟩ := Option.bind_eq_some_iff.mp hrun
      obtain ⟨hev, hords⟩ := hord
      obtain ⟨b', hi', hplace, hpub', hfreed'⟩ := h.kept hsim hi hpub hstep
      have haddr : b'.userAddr = b.userAddr := congrArg Obj.userLo hplace
      rw [hfreed, Bool.true_or] at hfreed'
      obtain ⟨ds', w', hsim'⟩ := hsim.step h hev hstep
      obtain ⟨k, hk⟩ := ih (h.step hev hstep) hsim' hi' hpub' hfreed' hrest (hords m' hstep)
      rw [haddr] at hk
      simp only [verdicts, hstep, hk]
      cases hlook : m.looksUp b.userAddr ev with
      | true =>
          have houtcome := h.outcome_eq hsim hi hpub hlook hstep
          rw [hfreed, if_pos rfl] at houtcome
          exact ⟨k + 1, by rw [if_pos rfl, houtcome]; rfl⟩
      | false => exact ⟨k, rfl⟩

/-- The first lookup of a block that is not freed succeeds, and every other one reports a
double free. -/
theorem Machine.Inv.verdicts_of_live {es : List Event} {n : Machine} (h : m.Inv)
    (hsim : Simulates mem m ds w) (hi : m.rt.blocks[i]? = some b) (hpub : m.Published b)
    (hlive : b.freed = false) (hrun : run mstep m es = some n)
    (hord : EveryStep mstep Machine.Orderly m es) :
    ∃ k, verdicts b.userAddr m es = freedOnce b.userAddr k := by
  induction es generalizing m ds w b with
  | nil => exact ⟨0, rfl⟩
  | cons ev es ih =>
      rw [run_cons] at hrun
      obtain ⟨m', hstep, hrest⟩ := Option.bind_eq_some_iff.mp hrun
      obtain ⟨hev, hords⟩ := hord
      obtain ⟨b', hi', hplace, hpub', hfreed'⟩ := h.kept hsim hi hpub hstep
      have haddr : b'.userAddr = b.userAddr := congrArg Obj.userLo hplace
      rw [hlive, Bool.false_or] at hfreed'
      obtain ⟨ds', w', hsim'⟩ := hsim.step h hev hstep
      cases hlook : m.looksUp b.userAddr ev with
      | true =>
          rw [hlook] at hfreed'
          obtain ⟨k, hk⟩ := (h.step hev hstep).verdicts_of_freed hsim' hi' hpub' hfreed' hrest
            (hords m' hstep)
          have houtcome := h.outcome_eq hsim hi hpub hlook hstep
          rw [hlive] at houtcome
          rw [haddr] at hk
          refine ⟨k + 1, ?_⟩
          simp only [verdicts, hstep, hk, hlook, houtcome]
          rfl
      | false =>
          rw [hlook] at hfreed'
          obtain ⟨k, hk⟩ := ih (h.step hev hstep) hsim' hi' hpub' hfreed' hrest (hords m' hstep)
          rw [haddr] at hk
          refine ⟨k, ?_⟩
          simp only [verdicts, hstep, hk, hlook]
          rfl

end Once

/-! ## Every call is counted -/

section Counted

variable {mem : Bytes} {m m' : Machine} {t ptr : ℕ} {r : Running} {ev : Event} {es : List Event}

/-- The calls that have been made. -/
def Machine.asked (m : Machine) : List (ℕ × Call × Sys) :=
  m.done.map Done.asked ++ m.running.map Running.asked

/-- A thread begins a call. -/
theorem asked_begin (hidle : m.current t = none) (hrun : m'.running = r :: m.rest t)
    (hdone : m'.done = m.done) (hasks : ev.asks = some r.asked) :
    m'.asked.Perm (m.asked ++ ev.asks.toList) := by
  have hperm := (running_perm m t).map Running.asked
  rw [hidle] at hperm
  unfold Machine.asked
  rw [hrun, hdone, hasks, List.append_assoc]
  refine List.Perm.append_left _ (List.Perm.trans ?_ (hperm.symm.append_right _))
  exact (List.perm_append_singleton _ _).symm

/-- A thread goes on with its call. -/
theorem asked_goOn {r₀ : Running} (hr : m.current t = some r₀) (hrun : m'.running = r :: m.rest t)
    (hdone : m'.done = m.done) (hsame : r.asked = r₀.asked) (hasks : ev.asks = none) :
    m'.asked.Perm (m.asked ++ ev.asks.toList) := by
  have hperm := (running_perm m t).map Running.asked
  rw [hr] at hperm
  unfold Machine.asked
  rw [hrun, hdone, hasks, Option.toList_none, List.append_nil, List.map_cons, hsame]
  exact hperm.symm.append_left _

/-- A step makes no call but the one that its event begins. -/
theorem asked_step (hstep : mstep m ev = some m') : m'.asked.Perm (m.asked ++ ev.asks.toList) := by
  cases effect_of_mstep hstep with
  | nothing hidle | request hidle | find hidle | enter hidle | leave hidle | store hidle =>
      apply asked_begin hidle <;> rfl
  | record hr | report hr | ignore hr | mark hr | write hr => apply asked_goOn hr <;> rfl
  | ret hr hstage =>
      rename_i r own value
      have hperm := (running_perm m r.tid).map Running.asked
      have hnone : (Event.ret r.tid).asks = none := rfl
      rw [hr] at hperm
      rw [hnone, Option.toList_none, List.append_nil]
      refine List.Perm.trans ?_ (hperm.symm.append_left _)
      exact List.perm_middle.symm

/-- The calls that have returned or are under way are those of the run. -/
theorem asked_of_run (h : run mstep (.initial mem) es = some m) :
    m.asked.Perm (es.filterMap Event.asks) := by
  refine run_induction (Q := fun _ _ => True) (P := fun es m =>
    m.asked.Perm (es.filterMap Event.asks)) (List.Perm.refl _) ?_ es
    (everyStep_of_forall fun _ _ _ => trivial) h
  intro es ev m m' _ _ hm hstep
  rw [List.filterMap_append]
  refine (asked_step hstep).trans (hm.append ?_)
  cases hasks : ev.asks with
  | none => simp [hasks]
  | some c => simp [hasks]

/-- The calls that are going to look up the pointer, that of thread `t` first. -/
theorem pending_eq (m : Machine) (t ptr : ℕ) :
    m.pending ptr = (m.current t).toList.countP (fun r => r.stage = .find ptr) +
      (m.rest t).countP fun r => r.stage = .find ptr := by
  unfold Machine.pending
  rw [(running_perm m t).countP_eq, List.countP_append]

/-- A thread begins a call. -/
theorem pending_begin (hidle : m.current t = none) (hrun : m'.running = r :: m.rest t)
    (hlook : m.looksUp ptr ev = false) (hfind : decide (r.stage = .find ptr) = ev.frees ptr) :
    m'.pending ptr + (m.looksUp ptr ev).toNat = m.pending ptr + (ev.frees ptr).toNat := by
  rw [pending_eq m t, hidle, Machine.pending, hrun, List.countP_cons, hlook, ← hfind]
  cases decide (r.stage = .find ptr) <;> simp

/-- A thread goes on with its call, and is past the lookup. -/
theorem pending_goOn {r₀ : Running} (hr : m.current t = some r₀)
    (hrun : m'.running = r :: m.rest t) (hpast : r.stage ≠ .find ptr)
    (hlook : m.looksUp ptr ev = decide (r₀.stage = .find ptr)) (hfrees : ev.frees ptr = false) :
    m'.pending ptr + (m.looksUp ptr ev).toNat = m.pending ptr + (ev.frees ptr).toNat := by
  rw [pending_eq m t, hr, Machine.pending, hrun, List.countP_cons, hlook, hfrees,
    Option.toList_some, List.countP_singleton]
  cases decide (r₀.stage = .find ptr) with
  | true =>
      simp [hpast]
      omega
  | false => simp [hpast]

/-- A call is going to look its pointer up when it begins, and is not any more when it has
done so. -/
theorem pending_step (hptr : ptr ≠ 0) (hstep : mstep m ev = some m') :
    m'.pending ptr + (m.looksUp ptr ev).toNat = m.pending ptr + (ev.frees ptr).toNat := by
  cases effect_of_mstep hstep with
  | nothing hidle hc =>
      rename_i t c sys
      apply pending_begin hidle rfl rfl
      cases c with
      | free p =>
          have hne : p ≠ ptr := fun hp => hptr (hp.symm.trans hc)
          simp [Event.frees, hne]
      | malloc | alignedAlloc | calloc | stackEnter | stackLeave | store => rfl
  | request hidle hc hfresh =>
      rename_i t c sys b
      apply pending_begin hidle rfl rfl
      cases c with
      | free p => simp [Call.request] at hc
      | malloc | alignedAlloc | calloc | stackEnter | stackLeave | store => rfl
  | find hidle hp =>
      rename_i t p sys
      apply pending_begin hidle rfl rfl
      simp [Event.frees]
  | enter hidle hfresh => apply pending_begin hidle rfl rfl rfl
  | leave hidle hv => apply pending_begin hidle rfl rfl rfl
  | store hidle hopen => apply pending_begin hidle rfl rfl rfl
  | record hr hstage hrec =>
      exact pending_goOn hr rfl (by simp [Running.recorded]) (looksUp_lock hr) rfl
  | report hr hstage => exact pending_goOn hr rfl (by simp) (looksUp_lock hr) rfl
  | ignore hr hstage hfree =>
      exact pending_goOn hr rfl (by simp [Running.through]) (looksUp_lock hr) rfl
  | mark hr hstage hfree =>
      exact pending_goOn hr rfl (by simp [Running.marked]) (looksUp_lock hr) rfl
  | write hr hstage => exact pending_goOn hr rfl (by simp) (by simp [hstage, Machine.looksUp]) rfl
  | ret hr hstage =>
      rename_i r own value
      rw [pending_eq m r.tid, hr]
      simp [Machine.pending, Machine.looksUp, Event.frees, hstage]

/-- Every call of `free` looks up its pointer once. -/
theorem length_verdicts (hptr : ptr ≠ 0) {n : Machine} (hrun : run mstep m es = some n) :
    (verdicts ptr m es).length + n.pending ptr = m.pending ptr + es.countP (Event.frees ptr) := by
  induction es generalizing m with
  | nil =>
      obtain rfl := Option.some.inj hrun
      simp [verdicts]
  | cons ev es ih =>
      rw [run_cons] at hrun
      obtain ⟨m', hstep, hrest⟩ := Option.bind_eq_some_iff.mp hrun
      have hcount := ih hrest
      have hone := pending_step hptr hstep
      have hlook : (if m.looksUp ptr ev then [m'.outcome ev.tid] else []).length =
          (m.looksUp ptr ev).toNat := by
        cases m.looksUp ptr ev <;> rfl
      have hfrees : (if Event.frees ptr ev then 1 else 0) = (ev.frees ptr).toNat := by
        cases ev.frees ptr <;> rfl
      simp only [verdicts, hstep, List.length_append, List.countP_cons, hlook, hfrees]
      omega

end Counted

/-! ## Lock-free updates are safe -/

/-- No call is under way: each one has returned, or has reported something. -/
def Machine.Quiet (m : Machine) : Prop := ∀ r ∈ m.running, ∃ e, r.stage = .reported e

theorem Machine.Quiet.settled {m : Machine} (h : m.Quiet) :
    m.running.filterMap Running.settled = [] := by
  rw [List.filterMap_eq_nil_iff]
  intro r hr
  obtain ⟨e, he⟩ := h r hr
  rw [Running.settled, he]

theorem Machine.Quiet.settle {m : Machine} (h : m.Quiet) : m.settle = m.rt := by
  refine settle_congr (f := id) fun todo htodo a ha => ?_
  obtain ⟨r, hr, rfl⟩ := List.mem_map.mp htodo
  obtain ⟨e, he⟩ := h r hr
  rw [Running.todo, he] at ha
  simp at ha

/-- The state is that of a sequential run of the calls that have returned, with the same
results; together with those that have reported something they are the calls of `es`. -/
def Machine.Serial (mem : Bytes) (es : List Event) (m : Machine) : Prop :=
  ∃ ds w, (ds.map Done.asked ++ m.running.map Running.asked).Perm (es.filterMap Event.asks) ∧
    ds.Perm m.done ∧ run seqStep (startWorld mem) ds = some w ∧ w.rt = m.rt ∧
    w.stack.Perm (m.stack.map Prod.snd)

/-- In every state that an orderly interleaving of calls reaches: if no call is under way, the
state is that of a sequential run; the next step leaves the objects alone that its call does
not own; and a published block is freed once, however the calls go on: as many calls look it
up as there are, the first one frees it, and every other one reports a double free. -/
theorem lockFree_safe {mem : Bytes} {es : List Event} {m : Machine}
    (hrun : run mstep (.initial mem) es = some m)
    (hord : EveryStep mstep Machine.Orderly (.initial mem) es) :
    (m.Quiet → m.Serial mem es) ∧
    (∀ ev m', m.Calm ev → mstep m ev = some m' → ∀ o ∈ m.objs, ¬ m.Owns ev.tid o →
      Untouched ev m.rt m'.rt o) ∧
    ∀ (i : ℕ) (b : Block), m.rt.blocks[i]? = some b → m.Published b → b.freed = false →
      ∀ es' m', run mstep m es' = some m' → EveryStep mstep Machine.Orderly m es' →
        ∃ n, n + m'.pending b.userAddr =
            m.pending b.userAddr + es'.countP (Event.frees b.userAddr) ∧
          verdicts b.userAddr m es' = freedOnce b.userAddr n := by
  obtain ⟨hinv, ds, w, hsim⟩ := simulates_of_run hrun hord
  refine ⟨fun hquiet => ?_, ?_, ?_⟩
  · have hcalls : ds.Perm m.done := by
      have hcalls := hsim.calls
      rw [hquiet.settled, List.append_nil] at hcalls
      exact hcalls
    refine ⟨ds, w, ?_, hcalls, hsim.seq, hsim.rt.symm.trans hquiet.settle, hsim.stack.symm⟩
    exact ((hcalls.map Done.asked).append_right _).trans (asked_of_run hrun)
  · exact fun ev m' hcalm hstep o ho hnot => hsim.untouched hinv hcalm hstep ho hnot
  · intro i b hi hpub hlive es' m' hrun' hord'
    obtain ⟨n, hn⟩ := hinv.verdicts_of_live hsim hi hpub hlive hrun' hord'
    have hptr : b.userAddr ≠ 0 := by
      have hroom := hinv.room b (List.mem_of_getElem? hi)
      simp only [redzoneSize] at hroom
      omega
    have hcount := length_verdicts hptr hrun'
    rw [hn, length_freedOnce] at hcount
    exact ⟨n, hcount, hn⟩

/-- Two allocations take turns, a thread stores a byte, and another one enters a variable. -/
def turnsRun : List Event :=
  [.call 0 (.malloc 13 none 0) ⟨some 0x1000, true⟩,
    .call 1 (.calloc 1 5 none 0) ⟨some 0x2000, true⟩, .lock 1, .lock 0, .write 0, .write 1,
    .write 1, .write 0, .write 0, .write 1, .write 0, .write 1, .write 1, .write 0, .ret 1, .ret 0,
    .call 1 (.store 0x1011 7) ⟨none, true⟩, .ret 1,
    .call 2 (.stackEnter ⟨0x7000, 5⟩) ⟨none, true⟩, .write 2, .write 2, .ret 2]

/-- Three threads free the first block. -/
def freesRun : List Event :=
  [.call 0 (.free 0x1010) ⟨none, true⟩, .call 1 (.free 0x1010) ⟨none, true⟩,
    .call 2 (.free 0x1010) ⟨none, true⟩, .lock 1, .lock 0, .write 1, .lock 2, .ret 1]

/-- The state after `turnsRun`, and what can be seen of it and of `freesRun`. -/
def turnsEnd (m : Machine) : Prop :=
  m.running = [] ∧ m.rt.blocks[1]?.map (fun b => (b.userAddr, b.freed)) = some (0x1010, false) ∧
    EveryStep mstep Machine.Orderly m freesRun ∧
    (run mstep m freesRun).any (fun m' => m'.pending 0x1010 = 0) = true

instance (m : Machine) : Decidable (turnsEnd m) :=
  inferInstanceAs (Decidable (_ ∧ _ ∧ _ ∧ _))

theorem lockFree_safe_turnsRun : ∃ m, run mstep (.initial fun _ => 0xab) turnsRun = some m ∧
    m.Serial (fun _ => 0xab) turnsRun ∧
    (∀ ev m', m.Calm ev → mstep m ev = some m' → ∀ o ∈ m.objs, ¬ m.Owns ev.tid o →
      Untouched ev m.rt m'.rt o) ∧
    verdicts 0x1010 m freesRun = [.frees, .reports (.freeError "double-free" 0x1010),
      .reports (.freeError "double-free" 0x1010)] := by
  have hany : (run mstep (.initial fun _ => 0xab) turnsRun).any (fun m => turnsEnd m) = true := by
    decide +kernel
  have hord : EveryStep mstep Machine.Orderly (.initial fun _ => 0xab) turnsRun := by
    decide +kernel
  obtain ⟨m, hm, hend⟩ := (Option.any_eq_true ..).mp hany
  obtain ⟨hidle, hblock, hord', hpending⟩ := of_decide_eq_true hend
  obtain ⟨b, hb, hfields⟩ := Option.map_eq_some_iff.mp hblock
  obtain ⟨haddr, hlive⟩ := Prod.mk.inj hfields
  obtain ⟨m', hm', hnone⟩ := (Option.any_eq_true ..).mp hpending
  obtain ⟨hserial, huntouched, honce⟩ := lockFree_safe hm hord
  have hquiet : m.Quiet := by simp [Machine.Quiet, hidle]
  have hpub : m.Published b := by simp [Machine.Published, hidle]
  obtain ⟨n, hn, hverdicts⟩ := honce 1 b hb hpub hlive freesRun m' hm' hord'
  have hzero : m.pending 0x1010 = 0 := by simp [Machine.pending, hidle]
  have hthree : freesRun.countP (Event.frees 0x1010) = 3 := by decide
  rw [haddr, hzero, hthree, of_decide_eq_true hnone] at hn
  rw [haddr, show n = 3 from hn] at hverdicts
  exact ⟨m, hm, hserial hquiet, huntouched, hverdicts⟩

/-- Stale bytes where `rz_allocate` is going to store the header. -/
def staleMem : Bytes := store64 (store64 (fun _ => 0) 0x1000 headerMagic) 0x1008 0

/-- A thread frees a block that another one has recorded and poisoned, but not carved out. -/
def staleRun : List Event :=
  [.call 0 (.malloc 8 none 0) ⟨some 0x1000, true⟩, .lock 0, .write 0,
    .call 1 (.free 0x1010) ⟨none, true⟩, .lock 1, .write 1, .ret 1, .write 0, .write 0, .write 0,
    .ret 0]

/-- The same where nothing is found, and another free after the block has been handed out. -/
def earlyRun : List Event :=
  [.call 0 (.malloc 8 none 0) ⟨some 0x1000, true⟩, .lock 0, .write 0,
    .call 1 (.free 0x1010) ⟨none, true⟩, .lock 1, .write 0, .write 0, .write 0, .ret 0,
    .call 2 (.free 0x1010) ⟨none, true⟩, .lock 2]

/-- A free in front of the return of the allocation: found by stale bytes, it leaves a freed
block behind whose user bytes are addressable, which no order of the two calls does; and
not found, it reports an invalid free beside the one that succeeds. -/
theorem unpublished_not_safe :
    (∃ m, run mstep (.initial staleMem) staleRun = some m ∧ m.running = [] ∧
      ¬ m.Serial staleMem staleRun) ∧
    verdicts 0x1010 (.initial fun _ => 0) earlyRun =
      [.reports (.freeError "invalid-free" 0x1010), .frees] := by
  refine ⟨?_, by decide +kernel⟩
  have hany : (run mstep (.initial staleMem) staleRun).any (fun m : Machine =>
      m.running.isEmpty && m.done.permutations'.all fun ds =>
        (run seqStep (startWorld staleMem) ds).all fun w =>
          w.rt.blocks != m.rt.blocks || w.rt.shadow 0x202 != m.rt.shadow 0x202) = true := by
    decide +kernel
  obtain ⟨m, hm, hboth⟩ := (Option.any_eq_true ..).mp hany
  obtain ⟨hidle, hall⟩ := (Bool.and_eq_true ..).mp hboth
  refine ⟨m, hm, List.isEmpty_iff.mp hidle, ?_⟩
  rintro ⟨ds, w, -, hperm, hseq, hrt, -⟩
  have hone := List.all_eq_true.mp hall ds (List.mem_permutations'.mpr hperm)
  rw [hseq, Option.all_some, hrt] at hone
  simp at hone

end Redzone.Concurrent
