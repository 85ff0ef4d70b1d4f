/-
  Concurrent/Sequential.lean --- an interleaving does what the calls do one after another.

  A call takes effect at one step: an allocation when it records the block, a free when it
  marks it, entering and leaving a variable, a store, and a call that has no effect, at the
  start or at the lookup.  The calls in the order of these steps are a run of the process in which
  each call is executed as a whole.  Its runtime is what the machine's runtime will be when
  the running calls have made the updates that they owe.
-/
import Redzone.Concurrent.Steps

set_option autoImplicit false

namespace Redzone.Concurrent

open Redzone.Foundation
open Redzone.Shadow

/-! ## Calls as a whole -/

section Calls

variable {s rt : Rt} {sys : Sys} {c : Call} {b : Block} {idx : ℕ}

/-- A call that returns at once leaves the runtime as it is. -/
theorem Call.heapCall_of_nothing (hc : c.Nothing sys) :
    ∃ k, c.op sys = .heap k ∧ s.heapCall k = .ok s ∧ c.value s sys = none := by
  cases c with
  | malloc size file line =>
      have hreq : rzRequest size redzoneSize file line sys = none := hc
      refine ⟨_, rfl, ?_, ?_⟩
      · simp only [Rt.heapCall, redzoneMalloc, rzAllocate_eq, hreq, Except.map]
      · simp only [Call.value, redzoneMalloc, rzAllocate_eq, hreq, Except.toOption, Option.bind_some]
  | alignedAlloc alignment size file line =>
      have hreq : Call.request sys (.alignedAlloc alignment size file line) = none := hc
      have hcall : redzoneAlignedAlloc s alignment size file line sys = .ok (none, s) := by
        unfold redzoneAlignedAlloc
        simp only [Call.request] at hreq
        split
        · rfl
        · rename_i hpow
          rw [if_neg hpow] at hreq
          rw [rzAllocate_eq, hreq]
      refine ⟨_, rfl, ?_, ?_⟩
      · simp only [Rt.heapCall, hcall, Except.map]
      · simp only [Call.value, hcall, Except.toOption, Option.bind_some]
  | calloc nmemb size file line =>
      have hreq : Call.request sys (.calloc nmemb size file line) = none := hc
      have hcall : redzoneCalloc s nmemb size file line sys = .ok (none, s) := by
        unfold redzoneCalloc
        simp only [Call.request] at hreq
        split
        · rfl
        · rename_i hsmall
          rw [if_neg hsmall] at hreq
          rw [redzoneMalloc, rzAllocate_eq, hreq]
      refine ⟨_, rfl, ?_, ?_⟩
      · simp only [Rt.heapCall, hcall, Except.map]
      · simp only [Call.value, hcall, Except.toOption, Option.bind_some]
  | free ptr =>
      obtain rfl : ptr = 0 := hc
      exact ⟨_, rfl, rfl, rfl⟩
  | stackEnter v | stackLeave v | store => exact hc.elim

/-- An allocation as a whole: record the block, and make all updates. -/
theorem Call.heapCall_of_request (hc : c.request sys = some b)
    (hrec : recordBlock s b sys.growOk = .ok (idx, rt)) :
    ∃ k, c.op sys = .heap k ∧
      s.heapCall k = .ok (perform Write.act (allocWrites b idx ++ c.clears b.userAddr) rt) ∧
      c.value s sys = some b.userAddr := by
  cases c with
  | malloc size file line =>
      have hcall : redzoneMalloc s size file line sys =
          .ok (some b.userAddr, perform Write.act (allocWrites b idx) rt) := by
        simp only [Call.request] at hc
        simp only [redzoneMalloc, rzAllocate_eq, hc, hrec]
      refine ⟨_, rfl, ?_, ?_⟩
      · simp only [Rt.heapCall, hcall, Except.map, Call.clears, List.append_nil]
      · simp only [Call.value, hcall, Except.toOption, Option.bind_some]
  | alignedAlloc alignment size file line =>
      have hcall : redzoneAlignedAlloc s alignment size file line sys =
          .ok (some b.userAddr, perform Write.act (allocWrites b idx) rt) := by
        simp only [Call.request] at hc
        unfold redzoneAlignedAlloc
        split
        · rename_i hpow
          simp [hpow] at hc
        · rename_i hpow
          rw [if_neg hpow] at hc
          simp only [rzAllocate_eq, hc, hrec]
      refine ⟨_, rfl, ?_, ?_⟩
      · simp only [Rt.heapCall, hcall, Except.map, Call.clears, List.append_nil]
      · simp only [Call.value, hcall, Except.toOption, Option.bind_some]
  | calloc nmemb size file line =>
      have hcall : redzoneCalloc s nmemb size file line sys = .ok (some b.userAddr,
          perform Write.act (allocWrites b idx ++ [.zero b.userAddr (nmemb * size)]) rt) := by
        simp only [Call.request] at hc
        unfold redzoneCalloc
        split
        · rename_i hbig
          simp [hbig] at hc
        · rename_i hbig
          rw [if_neg hbig] at hc
          simp only [redzoneMalloc, rzAllocate_eq, hc, hrec, perform_append]
          rfl
      refine ⟨_, rfl, ?_, ?_⟩
      · simp only [Rt.heapCall, hcall, Except.map, Call.clears]
      · simp only [Call.value, hcall, Except.toOption, Option.bind_some]
  | free ptr | stackEnter v | stackLeave v | store => simp [Call.request] at hc

/-- Recording looks at the number of blocks and at the capacity only. -/
theorem recordBlock_congr {s' : Rt} {growOk : Bool} (hblocks : s'.blocks = s.blocks)
    (hcap : s'.cap = s.cap) (h : recordBlock s b growOk = .ok (idx, rt)) :
    recordBlock s' b growOk = .ok (idx, { s' with blocks := rt.blocks, cap := rt.cap }) := by
  unfold recordBlock at h ⊢
  rw [hblocks, hcap]
  split at h
  · rename_i hfull
    rw [if_pos hfull]
    split at h
    · rename_i hgrow
      obtain ⟨rfl, rfl⟩ := Prod.mk.inj (Except.ok.inj h)
      rw [if_pos hgrow]
    · simp at h
  · rename_i hfull
    obtain ⟨rfl, rfl⟩ := Prod.mk.inj (Except.ok.inj h)
    rw [if_neg hfull]

theorem recordBlock_rt {growOk : Bool} (h : recordBlock s b growOk = .ok (idx, rt)) :
    rt = { s with blocks := rt.blocks, cap := rt.cap } := by
  obtain ⟨-, -, hshadow, hmem⟩ := recordBlock_ok h
  rw [← hshadow, ← hmem]

end Calls

/-! ## The simulation -/

/-- What the call has returned, or is going to return, once it has taken effect. -/
def Running.settled (r : Running) : Option Done :=
  match r.stage with
  | .writes _ _ value => some ⟨r.tid, r.call, r.sys, value⟩
  | _ => none

/-- The runtime when the running calls have made their updates. -/
def Machine.settle (m : Machine) : Rt :=
  Foundation.settle Write.act (m.running.map Running.todo) m.rt

/-- The calls that have taken effect, one after another, lead to the world `w`. -/
structure Simulates (mem : Bytes) (m : Machine) (ds : List Done) (w : World) : Prop where
  seq : run seqStep (startWorld mem) ds = some w
  calls : ds.Perm (m.done ++ m.running.filterMap Running.settled)
  rt : m.settle = w.rt
  stack : (m.stack.map Prod.snd).Perm w.stack
  internals : w.internals = []
  externals : w.externals = []

section World

variable {mem : Bytes} {w w' : World} {ds : List Done} {d : Done}

theorem seqStep_eq_some : seqStep w d = some w' ↔
    d.call.value w.rt d.sys = d.value ∧ w.MayStore (d.call.op d.sys) ∧
      w.step (d.call.op d.sys) = some w' := by
  unfold seqStep
  split
  · rename_i h
    simp [h]
  · rename_i h
    refine iff_of_false (by simp) ?_
    rintro ⟨hvalue, hmay, -⟩
    exact h ⟨hvalue, hmay⟩

theorem intact_start (mem : Bytes) : (startWorld mem).Intact := by
  refine ⟨guarded_nil, painted_nil, ?_, ?_⟩
  · simp [Rt.Roomy, startWorld, Rt.initial]
  · simp [Rt.Headed, startWorld, Rt.initial]

/-- Calls one after another keep shadow and headers intact. -/
theorem intact_of_seq (h : run seqStep (startWorld mem) ds = some w) : w.Intact := by
  refine run_invariant (I := World.Intact) (intact_start mem) ?_ ds h
  intro w d w' hw hstep
  obtain ⟨-, hmay, hstep⟩ := seqStep_eq_some.mp hstep
  exact hw.step hmay hstep

end World

section Simulation

variable {mem : Bytes} {m m' : Machine} {t x : ℕ} {r r' : Running} {ev : Event} {ds : List Done}
  {w w' : World} {d : Done} {b : Block} {o : Obj}

/-- Different calls owe updates that commute. -/
theorem Machine.Inv.independent (h : m.Inv) :
    (m.running.map Running.todo).Pairwise (Independent Write.act) := by
  rw [List.pairwise_map]
  exact h.beside.imp_of_mem fun hr hr' hbeside =>
    hbeside.independent (h.fits _ hr) (h.fits _ hr')

/-- The updates of one thread can be made first. -/
theorem Machine.Inv.settle_eq (h : m.Inv) (t : ℕ) :
    m.settle = Foundation.settle Write.act ((m.rest t).map Running.todo)
      (perform Write.act ((m.current t).elim [] Running.todo) m.rt) := by
  unfold Machine.settle
  rw [settle_perm ((running_perm m t).map Running.todo) h.independent]
  cases m.current t with
  | none => rfl
  | some r => rfl

/-- Or last. -/
theorem Machine.Inv.settle_put (h : m'.Inv) (hrun : m'.running = r :: m.rest t) :
    m'.settle = perform Write.act r.todo
      (Foundation.settle Write.act ((m.rest t).map Running.todo) m'.rt) := by
  have hind := h.independent
  unfold Machine.settle
  rw [hrun, List.map_cons] at hind ⊢
  exact settle_perform (List.pairwise_cons.mp hind).1

theorem perform_blocks (todo : List Write) (s : Rt) :
    (perform Write.act todo s).blocks = s.blocks :=
  perform_congr (f := Rt.blocks) fun _ _ _ => rfl

/-- The settled state has the same table. -/
theorem settle_blocks (m : Machine) : m.settle.blocks = m.rt.blocks :=
  settle_congr (f := Rt.blocks) fun _ _ _ _ _ => rfl

theorem settle_cap (m : Machine) : m.settle.cap = m.rt.cap :=
  settle_congr (f := Rt.cap) fun _ _ _ _ _ => rfl

/-- Where no update that is owed touches the chunk of a byte, its shadow is settled. -/
theorem Simulates.bytePoisoned_eq (h : Simulates mem m ds w)
    (hkeeps : ∀ r ∈ m.running, ∀ a ∈ r.todo, a.KeepsChunk (x / 8)) :
    bytePoisoned m.rt.shadow x = bytePoisoned w.rt.shadow x := by
  have hchunk : m.rt.shadow (x / 8) = w.rt.shadow (x / 8) := by
    rw [← h.rt]
    refine (settle_congr (f := fun s : Rt => s.shadow (x / 8)) ?_).symm
    intro todo htodo a ha s
    obtain ⟨r, hr, rfl⟩ := List.mem_map.mp htodo
    exact hkeeps r hr a ha s.shadow
  have hload : shadowLoad m.rt.shadow x = shadowLoad w.rt.shadow x := by
    unfold shadowLoad
    exact if_congr Iff.rfl hchunk rfl
  unfold bytePoisoned
  rw [hload]

/-- A step that no one can tell from outside. -/
theorem Simulates.silent (h : Simulates mem m ds w) (hsettle : m'.settle = m.settle)
    (hcalls : (m'.done ++ m'.running.filterMap Running.settled).Perm
      (m.done ++ m.running.filterMap Running.settled)) (hstack : m'.stack = m.stack) :
    Simulates mem m' ds w := by
  refine ⟨h.seq, h.calls.trans hcalls.symm, hsettle.trans h.rt, ?_, h.internals, h.externals⟩
  rw [hstack]
  exact h.stack

/-- The same for a thread that goes on with a call. -/
theorem Simulates.silent_put (h : Simulates mem m ds w) (hinv : m.Inv)
    (hrun : m'.running = r :: m.rest t) (hdone : m'.done = m.done) (hstack : m'.stack = m.stack)
    (hsettled : r.settled = (m.current t).bind Running.settled)
    (hperform : perform Write.act r.todo m'.rt =
      perform Write.act ((m.current t).elim [] Running.todo) m.rt) : Simulates mem m' ds w := by
  refine h.silent ?_ ?_ hstack
  · rw [hinv.settle_eq t, ← hperform]
    unfold Machine.settle
    rw [hrun]
    rfl
  · have hold := filterMap_perm Running.settled m t
    rw [hdone, hrun]
    refine List.Perm.append_left _ (List.Perm.trans ?_ hold.symm)
    rw [← hsettled]
    cases hr : r.settled with
    | none => simp [hr]
    | some d => simp [hr]

/-- A step at which a call takes effect. -/
theorem Simulates.point (h : Simulates mem m ds w)
    (hcur : (m.current t).bind Running.settled = none) (hrun : m'.running = r :: m.rest t)
    (hdone : m'.done = m.done) (hd : r.settled = some d) (hseq : seqStep w d = some w')
    (hrt : m'.settle = w'.rt) (hstack : (m'.stack.map Prod.snd).Perm w'.stack)
    (hint : w'.internals = []) (hext : w'.externals = []) : Simulates mem m' (ds ++ [d]) w' := by
  refine ⟨run_snoc_eq_some.mpr ⟨w, h.seq, hseq⟩, ?_, hrt, hstack, hint, hext⟩
  have hold := filterMap_perm Running.settled m t
  rw [hcur] at hold
  rw [hdone, hrun, List.filterMap_cons, hd]
  refine ((h.calls.trans (hold.append_left _)).append_right [d]).trans ?_
  simp only [Option.toList_none, List.nil_append]
  refine List.perm_append_comm.trans ?_
  rw [List.singleton_append]
  exact List.perm_middle.symm

/-- An extent that is apart from blocks and variables is free in the sequential world. -/
theorem Simulates.fresh (h : Simulates mem m ds w) (hal : o.lo % 16 = 0) (htop : o.top ≤ shadowLimit)
    (hblocks : ∀ o' ∈ m.rt.blocks.map place, Obj.Apart o o')
    (hstack : ∀ x ∈ m.stack, Obj.Apart o x.2.obj) : w.Fresh o.lo o.top := by
  refine ⟨hal, htop, fun o' ho' => ?_⟩
  rcases World.mem_objs.mp ho' with ⟨b, hb, rfl⟩ | ⟨v, hv, rfl⟩ | ⟨g, hg, -⟩ | ⟨g, hg, -⟩
  · rw [← h.rt, settle_blocks] at hb
    exact hblocks (place b) (List.mem_map_of_mem hb)
  · obtain ⟨x, hx, rfl⟩ := List.mem_map.mp (h.stack.mem_iff.mpr hv)
    exact hstack x hx
  · rw [h.internals] at hg
    simp at hg
  · rw [h.externals] at hg
    simp at hg

/-- No call of the machine stores a pointer for the program. -/
theorem out_of_op {c : Call} {sys : Sys} {k : HeapCall} (hop : c.op sys = .heap k) :
    k.out = [] := by
  cases c with
  | malloc | alignedAlloc | calloc | free =>
      obtain rfl := Op.heap.inj hop
      rfl
  | stackEnter | stackLeave | store => simp [Call.op] at hop

/-- A heap call as a step of the sequential world. -/
theorem seqStep_heap {k : HeapCall} {rt : Rt} (hop : d.call.op d.sys = .heap k)
    (hvalue : d.call.value w.rt d.sys = d.value) (hcall : w.rt.heapCall k = .ok rt)
    (hfresh : ∀ b ∈ rt.blocks.drop w.rt.blocks.length,
      w.Fresh b.realBase (b.realBase + b.totalSize)) :
    seqStep w d = some { w with rt := rt } := by
  have hmay : w.MayStore (.heap k) := by
    simp only [World.MayStore, hcall, out_of_op hop]
    simp
  rw [seqStep_eq_some, hop]
  refine ⟨hvalue, hmay, ?_⟩
  simp only [World.step, hcall]
  exact if_pos hfresh

/-- The settled state in front of a step at which a call takes effect. -/
theorem Simulates.rest (h : Simulates mem m ds w) (hinv : m.Inv)
    (htodo : (m.current t).elim [] Running.todo = []) :
    Foundation.settle Write.act ((m.rest t).map Running.todo) m.rt = w.rt := by
  rw [← h.rt, hinv.settle_eq t, htodo]
  rfl

/-- A change of the table commutes with all updates. -/
theorem settle_table (owed : List (List Write)) (s : Rt) (blocks : List Block) (cap : ℕ) :
    Foundation.settle Write.act owed { s with blocks := blocks, cap := cap } =
      { Foundation.settle Write.act owed s with blocks := blocks, cap := cap } :=
  (settle_comm (f := fun s : Rt => { s with blocks := blocks, cap := cap })
    fun _ _ _ _ _ => rfl).symm

theorem Simulates.nothing (h : Simulates mem m ds w) (hinv : m.Inv) {c : Call} {sys : Sys}
    (hidle : m.current t = none) (hc : c.Nothing sys) :
    Simulates mem (m.put ⟨t, c, sys, .writes none [] none⟩) (ds ++ [⟨t, c, sys, none⟩]) w := by
  obtain ⟨k, hop, hcall, hvalue⟩ := Call.heapCall_of_nothing (s := w.rt) hc
  have hrest := h.rest hinv (t := t) (by rw [hidle]; rfl)
  refine h.point (by rw [hidle]; rfl) rfl rfl rfl ?_ ?_ h.stack h.internals h.externals
  · apply seqStep_heap hop hvalue hcall
    simp
  · rw [(hinv.nothing hc).settle_put rfl]
    exact hrest

theorem Simulates.enter (h : Simulates mem m ds w) (hinv : m.Inv) {v : StackVar} {sys : Sys}
    (hidle : m.current t = none) (hfresh : m.Fresh v.base (v.base + v.size + 2 * redzoneSize)) :
    Simulates mem { m.put ⟨t, .stackEnter v, sys, .writes (some v.obj) (enterWrites v) none⟩ with
      stack := (t, v) :: m.stack } (ds ++ [⟨t, .stackEnter v, sys, none⟩])
      { w with rt := redzoneStackEnter w.rt v.base v.size, stack := v :: w.stack } := by
  have hrest := h.rest hinv (t := t) (by rw [hidle]; rfl)
  have hapart := hfresh.apart (o := v.obj) rfl rfl
  refine h.point (by rw [hidle]; rfl) rfl rfl rfl ?_ ?_ ?_ h.internals h.externals
  · rw [seqStep_eq_some]
    refine ⟨rfl, trivial, if_pos (h.fresh (o := v.obj) hfresh.1 hfresh.2.1 ?_ ?_)⟩
    · exact fun o' ho' => hapart o' (List.mem_append_left _ ho')
    · intro x hx
      apply hapart
      apply List.mem_append_right
      apply List.mem_append_left
      exact List.mem_map_of_mem hx
  · rw [(hinv.enter hfresh).settle_put rfl, ← hrest]
    exact perform_enterWrites v
  · exact h.stack.cons v

theorem Simulates.leave (h : Simulates mem m ds w) (hinv : m.Inv) {v : StackVar} {sys : Sys}
    (hidle : m.current t = none) (hv : (t, v) ∈ m.stack) :
    Simulates mem { m.put ⟨t, .stackLeave v, sys, .writes (some v.obj) (leaveWrites v) none⟩ with
      stack := m.stack.erase (t, v) } (ds ++ [⟨t, .stackLeave v, sys, none⟩])
      { w with rt := redzoneStackLeave w.rt v.base v.size, stack := w.stack.erase v } := by
  have hrest := h.rest hinv (t := t) (by rw [hidle]; rfl)
  have hmem : v ∈ w.stack := h.stack.mem_iff.mp (List.mem_map.mpr ⟨_, hv, rfl⟩)
  refine h.point (by rw [hidle]; rfl) rfl rfl rfl ?_ ?_ ?_ h.internals h.externals
  · rw [seqStep_eq_some]
    exact ⟨rfl, trivial, if_pos hmem⟩
  · rw [(hinv.leave hv).settle_put rfl, ← hrest]
    exact perform_leaveWrites v
  · refine List.Perm.cons_inv (a := v) ?_
    refine List.Perm.trans ?_ (h.stack.trans (List.perm_cons_erase hmem))
    exact ((List.perm_cons_erase hv).map Prod.snd).symm

/-- What a call holds is apart from the blocks and the variables. -/
theorem Machine.Inv.held_apart (h : m.Inv) (hr : r ∈ m.running) (ho : r.held = some o) :
    (∀ o' ∈ m.rt.blocks.map place, Obj.Apart o o') ∧ ∀ x ∈ m.stack, Obj.Apart o x.2.obj := by
  obtain ⟨-, hstack, hcross⟩ := List.pairwise_append.mp h.laid.apart
  obtain ⟨-, -, hcross'⟩ := List.pairwise_append.mp hstack
  have hmem : o ∈ m.running.filterMap Running.held := List.mem_filterMap.mpr ⟨r, hr, ho⟩
  refine ⟨fun o' ho' => ?_, fun x hx => ?_⟩
  · exact (hcross o' ho' o (List.mem_append_right _ hmem)).symm
  · exact (hcross' _ (List.mem_map_of_mem hx) o hmem).symm

theorem Simulates.record (h : Simulates mem m ds w) (hinv : m.Inv) (hr : m.current r.tid = some r)
    (hstage : r.stage = .record b) {idx : ℕ} {rt : Rt}
    (hrec : recordBlock m.rt b r.sys.growOk = .ok (idx, rt)) :
    ∃ w', Simulates mem { m.put (r.recorded b idx) with rt := rt }
      (ds ++ [⟨r.tid, r.call, r.sys, some b.userAddr⟩]) w' := by
  have hmem := mem_running hr
  obtain ⟨hreq, -⟩ := (hinv.fits r hmem).of_record hstage
  have hheld : r.held = some (place b) := by
    unfold Running.held
    rw [hstage]
  have htodo : r.todo = [] := by
    unfold Running.todo
    rw [hstage]
  have hrest := h.rest hinv (t := r.tid) (by rw [hr]; exact htodo)
  have hblocks : w.rt.blocks = m.rt.blocks := by rw [← h.rt, settle_blocks]
  have hcap : w.rt.cap = m.rt.cap := by rw [← h.rt, settle_cap]
  have hnew : rt.blocks = w.rt.blocks ++ [b] := by rw [hblocks, (recordBlock_ok hrec).2.1]
  have hsettle : Foundation.settle Write.act ((m.rest r.tid).map Running.todo) rt =
      { w.rt with blocks := rt.blocks, cap := rt.cap } := by
    rw [← hrest, ← settle_table]
    exact congrArg _ (recordBlock_rt hrec)
  obtain ⟨k, hop, hcall, hvalue⟩ :=
    Call.heapCall_of_request hreq (recordBlock_congr hblocks hcap hrec)
  refine ⟨_, h.point (t := r.tid) ?_ rfl rfl rfl (seqStep_heap hop hvalue hcall ?_) ?_ h.stack
    h.internals h.externals⟩
  · rw [hr]
    show r.settled = none
    unfold Running.settled
    rw [hstage]
  · rw [perform_blocks]
    intro b' hb'
    rw [hnew, List.drop_left, List.mem_singleton] at hb'
    rw [hb']
    have hok : (place b).OK := by
      apply hinv.laid.ok
      apply List.mem_append_right
      apply List.mem_append_right
      exact List.mem_filterMap.mpr ⟨r, hmem, hheld⟩
    obtain ⟨hplaces, hvars⟩ := hinv.held_apart hmem hheld
    exact h.fresh hok.lo_aligned hok.top_le hplaces hvars
  · rw [(hinv.record hr hstage hrec).settle_put rfl]
    exact congrArg _ hsettle

theorem Simulates.ignore (h : Simulates mem m ds w) (hinv : m.Inv) (hr : m.current r.tid = some r)
    {ptr : ℕ} {rt : Rt} (hstage : r.stage = .find ptr)
    (hfree : lockedFree m.rt ptr = .ok (none, rt)) :
    Simulates mem { m.put r.through with rt := rt } (ds ++ [⟨r.tid, r.call, r.sys, none⟩]) w := by
  have hinv' := hinv.ignore hr hstage hfree
  obtain ⟨rfl, hfound, hfind⟩ := lockedFree_none hfree
  obtain ⟨hcall, hptr⟩ := (hinv.fits r (mem_running hr)).of_find hstage
  have htodo : r.todo = [] := by
    unfold Running.todo
    rw [hstage]
  have hrest := h.rest hinv (t := r.tid) (by rw [hr]; exact htodo)
  have hblocks : w.rt.blocks = m.rt.blocks := by rw [← h.rt, settle_blocks]
  have hfind' : findBlock w.rt ptr = none := by
    unfold findBlock at hfind ⊢
    rw [hblocks]
    exact hfind
  -- a block that the header leads to has the pointer in its extent
  have hfound' : blockFromUserPtr w.rt ptr = none := by
    cases hb : blockFromUserPtr w.rt ptr with
    | none => rfl
    | some i =>
        obtain ⟨b, hi, huser⟩ := blockFromUserPtr_eq_some hb
        rw [hblocks] at hi
        have hmem := List.mem_of_getElem? hi
        have hok := hinv.laid.ok _ (List.mem_append_left _ (List.mem_map_of_mem hmem))
        have hle := hok.lo_le
        have hule := hok.user_le
        have hguard := hok.guard
        have htop := hok.top_le
        simp only [place, Block.obj, redzoneSize, shadowLimit] at hle hule hguard htop
        have hno := List.find?_eq_none.mp hfind b hmem
        rw [Nat.mod_eq_of_lt (by simp only [wordSize]; omega), ← huser] at hno
        simp only [Bool.and_eq_true, decide_eq_true_eq] at hno
        omega
  have hseq : w.rt.heapCall (.free ptr) = .ok w.rt := by
    have hlocked : lockedFree w.rt ptr = .ok (none, w.rt) := by
      unfold lockedFree
      rw [hfound', hfind']
    simp only [Rt.heapCall, redzoneFree_eq hptr, hlocked]
  refine h.point (t := r.tid) ?_ rfl rfl rfl ?_ ?_ h.stack h.internals h.externals
  · rw [hr]
    show r.settled = none
    unfold Running.settled
    rw [hstage]
  · apply seqStep_heap (k := .free ptr) ?_ ?_ hseq
    · simp
    · show r.call.op r.sys = _
      rw [hcall]
      rfl
    · show r.call.value w.rt r.sys = _
      rw [hcall]
      rfl
  · rw [hinv'.settle_put rfl]
    exact hrest

theorem Simulates.mark (h : Simulates mem m ds w) (hinv : m.Inv) (hr : m.current r.tid = some r)
    {ptr : ℕ} {rt : Rt} (hstage : r.stage = .find ptr)
    (hfree : lockedFree m.rt ptr = .ok (some b, rt))
    (hlate : m.findsEarly (.lock r.tid) = false) :
    ∃ w', Simulates mem { m.put (r.marked b) with rt := rt }
      (ds ++ [⟨r.tid, r.call, r.sys, none⟩]) w' := by
  have hinv' := hinv.mark hr hstage hfree hlate
  obtain ⟨i, -, hi, huser, hlive, rfl⟩ := lockedFree_some hfree
  obtain ⟨hcall, hptr⟩ := (hinv.fits r (mem_running hr)).of_find hstage
  have htodo : r.todo = [] := by
    unfold Running.todo
    rw [hstage]
  have hrest := h.rest hinv (t := r.tid) (by rw [hr]; exact htodo)
  have hblocks : w.rt.blocks = m.rt.blocks := by rw [← h.rt, settle_blocks]
  -- the header is there once the updates are made
  have hfound : blockFromUserPtr w.rt ptr = some i := by
    apply (intact_of_seq h.seq).lookup_iff.mpr
    rw [hblocks]
    exact ⟨b, hi, huser⟩
  have hsettle : Foundation.settle Write.act ((m.rest r.tid).map Running.todo)
      { m.rt with blocks := m.rt.blocks.set i { b with freed := true } } =
        { w.rt with blocks := w.rt.blocks.set i { b with freed := true } } := by
    have hcap : w.rt.cap = m.rt.cap := by rw [← h.rt, settle_cap]
    have htable := settle_table ((m.rest r.tid).map Running.todo) m.rt
      (m.rt.blocks.set i { b with freed := true }) m.rt.cap
    rw [hrest] at htable
    rw [htable, hblocks, ← hcap]
  have hseq : w.rt.heapCall (.free ptr) = .ok (perform Write.act (freeWrites b)
      { w.rt with blocks := w.rt.blocks.set i { b with freed := true } }) := by
    have hlocked : lockedFree w.rt ptr =
        .ok (some b, { w.rt with blocks := w.rt.blocks.set i { b with freed := true } }) := by
      unfold lockedFree
      rw [hfound]
      simp only [hblocks, hi, hlive, Bool.false_eq_true, if_false]
    simp only [Rt.heapCall, redzoneFree_eq hptr, hlocked]
  refine ⟨_, h.point (t := r.tid) ?_ rfl rfl rfl
    (seqStep_heap (k := .free ptr) ?_ ?_ hseq ?_) ?_ h.stack h.internals h.externals⟩
  · rw [hr]
    show r.settled = none
    unfold Running.settled
    rw [hstage]
  · show r.call.op r.sys = _
    rw [hcall]
    rfl
  · show r.call.value w.rt r.sys = _
    rw [hcall]
    rfl
  · rw [perform_blocks, List.drop_eq_nil_of_le (by rw [List.length_set])]
    simp
  · rw [hinv'.settle_put rfl]
    exact congrArg _ hsettle

/-- A store that is outside the objects of running calls is not touched by their updates. -/
theorem Machine.Inv.keeps_calm (h : m.Inv) {addr : ℕ} {byte : UInt8} {sys : Sys}
    (hcalm : m.Calm (.call t (.store addr byte) sys)) (hr : r ∈ m.running) {a : Write}
    (ha : a ∈ r.todo) : a.KeepsChunk (addr / 8) ∧ a.KeepsByte addr := by
  obtain ⟨o, ho, hwithin⟩ := (h.fits r hr).within ha
  have hal := (h.laid.ok o ((h.fits r hr).own_objs hr ho)).lo_aligned
  have hout := hcalm r hr o (List.mem_append_left _ (Option.mem_toList.mpr ho))
  simp only [Region.Mem, Obj.region, roundUp8] at hout
  exact ⟨hwithin.chunks (addr / 8) (by omega), hwithin.bytes addr (by omega)⟩

theorem Simulates.store (h : Simulates mem m ds w) (hinv : m.Inv) {addr : ℕ} {byte : UInt8}
    {sys : Sys} (hidle : m.current t = none) (hopen : bytePoisoned m.rt.shadow addr = false)
    (hcalm : m.Calm (.call t (.store addr byte) sys)) :
    Simulates mem { m.put ⟨t, .store addr byte, sys, .writes none [] none⟩ with
      rt := { m.rt with mem := Function.update m.rt.mem addr byte } }
      (ds ++ [⟨t, .store addr byte, sys, none⟩])
      { w with rt := { w.rt with mem := Function.update w.rt.mem addr byte } } := by
  have hrest := h.rest hinv (t := t) (by rw [hidle]; rfl)
  refine h.point (by rw [hidle]; rfl) rfl rfl rfl ?_ ?_ h.stack h.internals h.externals
  · rw [seqStep_eq_some]
    refine ⟨rfl, ?_, rfl⟩
    show bytePoisoned w.rt.shadow addr = false
    rw [← h.bytePoisoned_eq fun r hr a ha => (hinv.keeps_calm hcalm hr ha).1]
    exact hopen
  · have hinv' := hinv.idle_mem (r := ⟨t, .store addr byte, sys, .writes none [] none⟩)
      (Function.update m.rt.mem addr byte) rfl rfl (.nothing none rfl)
    rw [hinv'.settle_put rfl, ← hrest]
    refine (settle_comm (f := fun s : Rt => { s with mem := Function.update s.mem addr byte })
      fun todo htodo a ha s => ?_).symm
    obtain ⟨r, hr, rfl⟩ := List.mem_map.mp htodo
    have hkeeps := (hinv.keeps_calm hcalm (mem_rest hr) ha).2
    simp only [Write.act, hkeeps.onMem_update]

/-- Every orderly step is silent, or the step at which a call takes effect. -/
theorem Simulates.step (h : Simulates mem m ds w) (hinv : m.Inv) (hord : m.Orderly ev)
    (hstep : mstep m ev = some m') : ∃ ds' w', Simulates mem m' ds' w' := by
  cases effect_of_mstep hstep with
  | nothing hidle hc => exact ⟨_, _, h.nothing hinv hidle hc⟩
  | enter hidle hfresh => exact ⟨_, _, h.enter hinv hidle hfresh⟩
  | leave hidle hv => exact ⟨_, _, h.leave hinv hidle hv⟩
  | store hidle hopen => exact ⟨_, _, h.store hinv hidle hopen hord.calm⟩
  | record hr hstage hrec =>
      obtain ⟨w', hw'⟩ := h.record hinv hr hstage hrec
      exact ⟨_, w', hw'⟩
  | ignore hr hstage hfree => exact ⟨_, _, h.ignore hinv hr hstage hfree⟩
  | mark hr hstage hfree =>
      obtain ⟨w', hw'⟩ := h.mark hinv hr hstage hfree hord.late
      exact ⟨_, w', hw'⟩
  | request hidle hc hfresh =>
      exact ⟨ds, w, h.silent_put hinv rfl rfl rfl (by rw [hidle]; rfl) (by rw [hidle]; rfl)⟩
  | find hidle hptr =>
      exact ⟨ds, w, h.silent_put hinv rfl rfl rfl (by rw [hidle]; rfl) (by rw [hidle]; rfl)⟩
  | report hr hstage =>
      rename_i r e
      have hnone : r.settled = none ∧ r.todo = [] := by
        unfold Running.settled Running.todo
        rcases hstage with ⟨b, hstage⟩ | ⟨ptr, hstage, -⟩
        · rw [hstage]
          exact ⟨rfl, rfl⟩
        · rw [hstage]
          exact ⟨rfl, rfl⟩
      refine ⟨ds, w, h.silent_put hinv rfl rfl rfl ?_ ?_⟩
      · rw [hr]
        exact hnone.1.symm
      · rw [hr]
        show m.rt = perform Write.act r.todo m.rt
        rw [hnone.2]
        rfl
  | write hr hstage =>
      rename_i r own a todo value
      refine ⟨ds, w, h.silent_put hinv rfl rfl rfl ?_ ?_⟩
      · rw [hr]
        show _ = r.settled
        unfold Running.settled
        rw [hstage]
      · rw [hr]
        show _ = perform Write.act r.todo m.rt
        unfold Running.todo
        rw [hstage]
        rfl
  | ret hr hstage =>
      rename_i r own value
      have hset : r.settled = some ⟨r.tid, r.call, r.sys, value⟩ := by
        unfold Running.settled
        rw [hstage]
      have htodo : r.todo = [] := by
        unfold Running.todo
        rw [hstage]
      refine ⟨ds, w, h.silent ?_ ?_ rfl⟩
      · rw [hinv.settle_eq r.tid, hr, Option.elim_some, htodo]
        rfl
      · have hold := filterMap_perm Running.settled m r.tid
        rw [hr, Option.bind_some, hset] at hold
        refine List.Perm.trans ?_ (hold.append_left _).symm
        exact List.perm_middle.symm

theorem simulates_initial (mem : Bytes) : Simulates mem (.initial mem) [] (startWorld mem) :=
  ⟨rfl, List.Perm.refl _, rfl, List.Perm.refl _, rfl, rfl⟩

/-- In every state of an orderly run the calls are apart, and the calls that have taken
effect have a sequential run. -/
theorem simulates_of_run {es : List Event} (h : run mstep (.initial mem) es = some m)
    (hord : EveryStep mstep Machine.Orderly (.initial mem) es) :
    m.Inv ∧ ∃ ds w, Simulates mem m ds w := by
  refine run_induction (P := fun _ m => m.Inv ∧ ∃ ds w, Simulates mem m ds w)
    ⟨inv_initial mem, [], startWorld mem, simulates_initial mem⟩ ?_ es hord h
  intro es ev m m' _ hev hm hstep
  obtain ⟨hinv, ds, w, hsim⟩ := hm
  exact ⟨hinv.step hev hstep, hsim.step hinv hev hstep⟩

end Simulation

end Redzone.Concurrent
