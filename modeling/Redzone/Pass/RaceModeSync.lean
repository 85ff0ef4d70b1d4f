/-
  Pass/RaceModeSync.lean --- when race mode keeps every synchronization edge.

  `Tracked` says what the pass owes a function with a body: every direct call or
  invoke of a pthread primitive goes to its wrapper, every atomic write has its release
  hook before it and every atomic read its acquire hook after it.

  The pass does not owe this to all functions it is run on.  It collects calls but not
  invokes, `getCalledFunction` is null for a call whose type is not that of its
  function, and for an opted-out function it continues with the next one before the
  loop that hooks the atomic operations.  `Trackable` is the exact condition.
-/
import Redzone.Pass.RaceMode

set_option autoImplicit false

namespace Redzone.Pass

/-! ## What the pass owes -/

/-- The address an instruction writes atomically. -/
def Inst.atomicWrite : Inst → Option Value
  | .store ptr _ true _ => some ptr
  | .atomicRMW ptr => some ptr
  | .atomicCmpXchg ptr => some ptr
  | _ => none

/-- The address an instruction reads atomically. -/
def Inst.atomicRead : Inst → Option Value
  | .load ptr _ true _ => some ptr
  | .atomicRMW ptr => some ptr
  | .atomicCmpXchg ptr => some ptr
  | _ => none

/-- Every atomic write comes right after a release hook on its address, every atomic
read right before an acquire hook on its address; `prev` is what comes before. -/
def Hooked : Option Inst → List Inst → Prop
  | _, [] => True
  | prev, I :: rest =>
    (∀ ptr ∈ I.atomicWrite, prev = some (atomicRelease ptr)) ∧
    (∀ ptr ∈ I.atomicRead, rest.head? = some (atomicAcquire ptr)) ∧
    Hooked (some I) rest

/-- The call site with its callee replaced by the wrapper, if it has one. -/
def CallSite.retarget (c : CallSite) : CallSite :=
  match c.directCallee.bind syncTarget with
  | some target => c.setCalledFunction target
  | none => c

/-- An instruction whose call goes where it should. -/
def Inst.retarget : Inst → Inst
  | .call c => .call c.retarget
  | I => I

def Terminator.retarget : Terminator → Terminator
  | .invoke c => .invoke c.retarget
  | .other => .other

/-- The function an instruction calls directly. -/
def Inst.directCallee : Inst → Option String
  | .call c => c.directCallee
  | _ => none

def Terminator.directCallee : Terminator → Option String
  | .invoke c => c.directCallee
  | .other => none

/-- `BB'` is `BB` with every synchronization tracked. -/
structure BlockTracked (BB BB' : Block) : Prop where
  /-- The instructions are still there, calls of primitives going to their wrappers. -/
  kept : (BB.insts.map Inst.retarget).Sublist BB'.insts
  term : BB'.term = BB.term.retarget
  /-- No call of a primitive is left. -/
  resolved : ∀ I ∈ BB'.insts, ∀ N ∈ I.directCallee, syncTarget N = none
  hooked : Hooked none BB'.insts

/-- `F'` is `F` with every synchronization tracked. -/
structure Tracked (F F' : Func) : Prop where
  name : F'.name = F.name
  blocks : List.Forall₂ BlockTracked F.blocks F'.blocks

/-- The functions the pass has to look after: those with a body that are not part of
the runtimes. -/
def Func.Eligible (F : Func) : Prop :=
  F.isDeclaration = false ∧ isRuntimeName F.name = false

/-- Every function the pass has to look after is tracked in its output. -/
def NeverDropsSync (M : Module) : Prop :=
  ∀ (i : ℕ) (F : Func), M.functions[i]? = some F → F.Eligible →
    ∃ F', (runRaceMode M).functions[i]? = some F' ∧ Tracked F F'

/-! ## When it does -/

/-- No invoke of a primitive, and no call of one with another type than its own. -/
def Block.Redirectable (BB : Block) : Prop :=
  (∀ N ∈ BB.term.directCallee, syncTarget N = none) ∧
  ∀ c, Inst.call c ∈ BB.insts → ∀ N ∈ c.directCallee, syncTarget N ≠ none →
    c.typeMatches = true

/-- The synchronization of the function is within reach of the pass: its primitives are
called, not invoked, and if it opts out its atomic operations have hooks already. -/
def Func.Trackable (F : Func) : Prop :=
  ∀ BB ∈ F.blocks, BB.Redirectable ∧ (F.optsOut = true → Hooked none BB.insts)

/-! ## The table -/

/-- What the table redirects to is neither in the table nor one of the hooks. -/
theorem syncTarget_wrapper {N W : String} (h : syncTarget N = some W) :
    syncTarget W = none ∧ W ∉ hookNames := by
  have htable : ∀ p ∈ kSync, syncTarget p.2 = none ∧ p.2 ∉ hookNames := by decide
  have hmem : (plainName N, W) ∈ kSync := by
    unfold syncTarget at h
    obtain ⟨l₁, l₂, hl, -⟩ := List.lookup_eq_some_iff.mp h
    rw [hl]
    simp
  exact htable (plainName N, W) hmem

theorem syncTarget_hook {N : String} (h : N ∈ hookNames) : syncTarget N = none := by
  have htable : ∀ N ∈ hookNames, syncTarget N = none := by decide
  exact htable N h

/-! ## Redirection -/

section Redirect

variable {I : Inst} {insts : List Inst} {c : CallSite}

theorem getCalledFunction_of_matches (h : c.typeMatches = true) :
    c.getCalledFunction = c.directCallee := by
  simp [CallSite.getCalledFunction, h]

/-- A call with a type of its own is out of reach. -/
theorem redirect_of_mismatch (h : c.typeMatches = false) : redirect (.call c) = .call c := by
  simp [redirect, CallSite.getCalledFunction, h]

@[simp] theorem redirect_atomicWrite : (redirect I).atomicWrite = I.atomicWrite := by
  cases I with
  | call c =>
      simp only [redirect]
      split <;> rfl
  | _ => rfl

@[simp] theorem redirect_atomicRead : (redirect I).atomicRead = I.atomicRead := by
  cases I with
  | call c =>
      simp only [redirect]
      split <;> rfl
  | _ => rfl

/-- Within its reach, redirection is what it should be. -/
theorem redirect_eq_retarget
    (h : ∀ c, I = .call c → ∀ N ∈ c.directCallee, syncTarget N ≠ none → c.typeMatches = true) :
    redirect I = I.retarget := by
  cases I with
  | call c =>
      have hc := h c rfl
      cases hm : c.typeMatches with
      | true =>
          simp only [redirect, Inst.retarget, CallSite.retarget, getCalledFunction_of_matches hm]
          cases c.directCallee.bind syncTarget <;> rfl
      | false =>
          have hnone : c.directCallee.bind syncTarget = none := by
            cases hN : c.directCallee with
            | none => rfl
            | some N =>
                by_contra hne
                have := hc N (by simp [hN]) hne
                simp [hm] at this
          rw [redirect_of_mismatch hm, Inst.retarget, CallSite.retarget, hnone]
  | _ => rfl

/-- A call that goes where it should does not go to a primitive. -/
theorem retarget_resolved (c : CallSite) : ∀ N ∈ c.retarget.directCallee, syncTarget N = none := by
  intro N hN
  unfold CallSite.retarget at hN
  split at hN
  · rename_i target htarget
    obtain ⟨N₀, -, hN₀⟩ := Option.bind_eq_some_iff.mp htarget
    obtain rfl : target = N := by
      simpa [CallSite.setCalledFunction, CallSite.directCallee] using hN
    exact (syncTarget_wrapper hN₀).1
  · rename_i hnone
    have hN' : c.directCallee = some N := hN
    simpa [hN'] using hnone

theorem Inst.retarget_resolved (I : Inst) :
    ∀ N ∈ I.retarget.directCallee, syncTarget N = none := by
  cases I with
  | call c => exact Pass.retarget_resolved c
  | _ => simp [Inst.retarget, Inst.directCallee]

theorem Terminator.retarget_resolved (T : Terminator) :
    ∀ N ∈ T.retarget.directCallee, syncTarget N = none := by
  cases T with
  | invoke c => exact Pass.retarget_resolved c
  | other => simp [Terminator.retarget, Terminator.directCallee]

/-- A terminator that does not name a primitive goes where it should. -/
theorem Terminator.retarget_eq {T : Terminator}
    (h : ∀ N ∈ T.directCallee, syncTarget N = none) : T.retarget = T := by
  cases T with
  | other => rfl
  | invoke c =>
      have hnone : c.directCallee.bind syncTarget = none := by
        cases hN : c.directCallee with
        | none => rfl
        | some N => exact h N (by simp [Terminator.directCallee, hN])
      rw [Terminator.retarget, CallSite.retarget, hnone]

/-- Redirection makes no hook out of a call that was not one. -/
theorem redirect_eq_hook {name : String} {args : List Arg} (hname : name ∈ hookNames) :
    redirect I = .callTo name args ↔ I = .callTo name args := by
  constructor
  · intro h
    cases I with
    | call c =>
        simp only [redirect] at h
        split at h
        · rename_i target htarget
          obtain ⟨N₀, -, hN₀⟩ := Option.bind_eq_some_iff.mp htarget
          have hcallee := congrArg CallSite.callee (Inst.call.inj h)
          have heq : target = name := by simpa [CallSite.setCalledFunction] using hcallee
          exact absurd (heq ▸ hname) (syncTarget_wrapper hN₀).2
        · exact h
    | _ => exact h
  · rintro rfl
    simp [redirect, Inst.callTo, CallSite.getCalledFunction, CallSite.directCallee,
      syncTarget_hook hname]

theorem redirect_eq_release {ptr : Value} :
    redirect I = atomicRelease ptr ↔ I = atomicRelease ptr :=
  redirect_eq_hook (by decide)

theorem redirect_eq_acquire {ptr : Value} :
    redirect I = atomicAcquire ptr ↔ I = atomicAcquire ptr :=
  redirect_eq_hook (by decide)

/-- Redirection neither adds nor removes hooks. -/
theorem hooked_map_redirect (insts : List Inst) : ∀ prev : Option Inst,
    Hooked (prev.map redirect) (insts.map redirect) ↔ Hooked prev insts := by
  induction insts with
  | nil => intro prev; exact Iff.rfl
  | cons I rest ih =>
      intro prev
      have hprev : ∀ ptr, prev.map redirect = some (atomicRelease ptr) ↔
          prev = some (atomicRelease ptr) := by
        intro ptr
        cases prev <;> simp [redirect_eq_release]
      have hhead : ∀ ptr, (rest.map redirect).head? = some (atomicAcquire ptr) ↔
          rest.head? = some (atomicAcquire ptr) := by
        intro ptr
        cases rest <;> simp [redirect_eq_acquire]
      have htail := ih (some I)
      rw [Option.map_some] at htail
      simp only [List.map_cons, Hooked, redirect_atomicWrite, redirect_atomicRead, hprev, hhead,
        htail]

end Redirect

/-! ## Hooks -/

section Hooks

variable {I : Inst} {insts : List Inst}

/-- Every inserted instruction is a call of one of the four hooks. -/
theorem hook_callTo {J : Inst} (h : J ∈ hooksBefore I ∨ J ∈ hooksAfter I) :
    ∃ name args, name ∈ hookNames ∧ J = .callTo name args := by
  have hacquire : ∀ ptr, J = atomicAcquire ptr →
      ∃ name args, name ∈ hookNames ∧ J = .callTo name args :=
    fun ptr hJ => ⟨"rz_rt_atomic_acquire", _, by decide, hJ⟩
  have hrelease : ∀ ptr, J = atomicRelease ptr →
      ∃ name args, name ∈ hookNames ∧ J = .callTo name args :=
    fun ptr hJ => ⟨"rz_rt_atomic_release", _, by decide, hJ⟩
  have hemit : ∀ ptr size isWrite loc, J ∈ emitAccess ptr size isWrite loc →
      ∃ name args, name ∈ hookNames ∧ J = .callTo name args := by
    intro ptr size isWrite loc hJ
    cases size with
    | scalable bytes => simp [emitAccess] at hJ
    | fixed bytes =>
        refine ⟨_, _, ?_, List.mem_singleton.mp hJ⟩
        cases isWrite <;> decide
  cases I with
  | load ptr size isAtomic loc =>
      cases isAtomic with
      | false =>
          apply hemit ptr size false loc
          simpa [hooksBefore, hooksAfter] using h
      | true =>
          apply hacquire ptr
          simpa [hooksBefore, hooksAfter] using h
  | store ptr size isAtomic loc =>
      cases isAtomic with
      | false =>
          apply hemit ptr size true loc
          simpa [hooksBefore, hooksAfter] using h
      | true =>
          apply hrelease ptr
          simpa [hooksBefore, hooksAfter] using h
  | atomicRMW ptr =>
      rcases h with h | h
      · exact hrelease ptr (List.mem_singleton.mp h)
      · exact hacquire ptr (List.mem_singleton.mp h)
  | atomicCmpXchg ptr =>
      rcases h with h | h
      · exact hrelease ptr (List.mem_singleton.mp h)
      · exact hacquire ptr (List.mem_singleton.mp h)
  | call c => simp [hooksBefore, hooksAfter] at h
  | other => simp [hooksBefore, hooksAfter] at h

/-- What the hooks call is not a primitive. -/
theorem hook_resolved {J : Inst} (h : J ∈ hooksBefore I ∨ J ∈ hooksAfter I) :
    ∀ N ∈ J.directCallee, syncTarget N = none := by
  obtain ⟨name, args, hname, rfl⟩ := hook_callTo h
  intro N hN
  obtain rfl : name = N := by
    simpa [Inst.directCallee, Inst.callTo, CallSite.directCallee] using hN
  exact syncTarget_hook hname

/-- An instruction that is not atomic needs no neighbours. -/
theorem hooked_cons_plain {prev : Option Inst} {rest : List Inst} (hw : I.atomicWrite = none)
    (hr : I.atomicRead = none) (h : Hooked (some I) rest) : Hooked prev (I :: rest) := by
  refine ⟨?_, ?_, h⟩
  · simp [hw]
  · simp [hr]

theorem hooked_emitAccess {ptr : Value} {size : TypeSize} {isWrite : Bool}
    {loc : Option DebugLoc} {prev : Option Inst} {rest : List Inst}
    (h : ∀ prev, Hooked prev rest) : Hooked prev (emitAccess ptr size isWrite loc ++ rest) := by
  cases size with
  | scalable bytes => exact h prev
  | fixed bytes => exact hooked_cons_plain rfl rfl (h _)

/-- An operation that reads and writes, between its two hooks. -/
theorem hooked_readWrite {ptr : Value} {prev : Option Inst} {rest : List Inst}
    (hw : I.atomicWrite = some ptr) (hr : I.atomicRead = some ptr)
    (h : ∀ prev, Hooked prev rest) :
    Hooked prev (atomicRelease ptr :: I :: atomicAcquire ptr :: rest) := by
  refine hooked_cons_plain rfl rfl ⟨?_, ?_, hooked_cons_plain rfl rfl (h _)⟩
  · simp [hw]
  · simp [hr]

/-- One instruction with its hooks: an atomic operation has both neighbours it needs. -/
theorem hooked_instrument (I : Inst) (rest : List Inst) (prev : Option Inst)
    (hrest : ∀ prev, Hooked prev rest) : Hooked prev (instrument I ++ rest) := by
  rw [instrument, List.append_assoc, List.cons_append]
  cases I with
  | load ptr size isAtomic loc =>
      cases isAtomic with
      | false => exact hooked_emitAccess fun prev => hooked_cons_plain rfl rfl (hrest _)
      | true =>
          refine ⟨?_, ?_, hooked_cons_plain rfl rfl (hrest _)⟩
          · simp [Inst.atomicWrite]
          · simp [Inst.atomicRead, hooksAfter]
  | store ptr size isAtomic loc =>
      cases isAtomic with
      | false => exact hooked_emitAccess fun prev => hooked_cons_plain rfl rfl (hrest _)
      | true =>
          refine hooked_cons_plain rfl rfl ⟨?_, ?_, hrest _⟩
          · simp [Inst.atomicWrite]
          · simp [Inst.atomicRead]
  | atomicRMW ptr => exact hooked_readWrite rfl rfl hrest
  | atomicCmpXchg ptr => exact hooked_readWrite rfl rfl hrest
  | call c => exact hooked_cons_plain rfl rfl (hrest _)
  | other => exact hooked_cons_plain rfl rfl (hrest _)

theorem hooked_flatMap_instrument (insts : List Inst) :
    ∀ prev, Hooked prev (insts.flatMap instrument) := by
  induction insts with
  | nil => intro prev; trivial
  | cons I rest ih =>
      intro prev
      rw [List.flatMap_cons]
      exact hooked_instrument I _ prev ih

/-- The hooks are added to what was there. -/
theorem sublist_flatMap_instrument (insts : List Inst) :
    insts.Sublist (insts.flatMap instrument) := by
  induction insts with
  | nil => exact List.Sublist.slnil
  | cons I rest ih =>
      rw [List.flatMap_cons]
      have hone : [I].Sublist (instrument I) :=
        List.singleton_sublist.mpr (by simp [instrument])
      exact hone.append ih

end Hooks

/-! ## Blocks -/

section Blocks

variable {BB : Block}

theorem Block.Redirectable.map_redirect (h : BB.Redirectable) :
    BB.insts.map redirect = BB.insts.map Inst.retarget := by
  refine List.map_congr_left fun I hI => redirect_eq_retarget ?_
  rintro c rfl
  exact h.2 c hI

/-- A block whose terminator and calls are left to no primitive was within reach. -/
theorem redirectable_of_resolved (hterm : BB.term = BB.term.retarget)
    (hinsts : ∀ I ∈ BB.insts.map redirect, ∀ N ∈ I.directCallee, syncTarget N = none) :
    BB.Redirectable := by
  refine ⟨?_, ?_⟩
  · rw [hterm]
    exact BB.term.retarget_resolved
  · intro c hc N hN hsync
    by_contra hm
    have hmem : Inst.call c ∈ BB.insts.map redirect :=
      List.mem_map.mpr ⟨.call c, hc, redirect_of_mismatch (by simpa using hm)⟩
    exact hsync (hinsts _ hmem N hN)

theorem Block.Redirectable.resolved (h : BB.Redirectable) :
    ∀ I ∈ BB.insts.map redirect, ∀ N ∈ I.directCallee, syncTarget N = none := by
  intro I hI
  rw [h.map_redirect] at hI
  obtain ⟨J, -, rfl⟩ := List.mem_map.mp hI
  exact J.retarget_resolved

/-- A block of an opted-out function. -/
theorem blockTracked_optedOut :
    BlockTracked BB { BB with insts := BB.insts.map redirect } ↔
      BB.Redirectable ∧ Hooked none BB.insts := by
  have hhooked := hooked_map_redirect BB.insts none
  rw [Option.map_none] at hhooked
  constructor
  · intro h
    exact ⟨redirectable_of_resolved h.term h.resolved, hhooked.mp h.hooked⟩
  · rintro ⟨hreach, hhook⟩
    refine ⟨?_, ?_, hreach.resolved, hhooked.mpr hhook⟩
    · rw [← hreach.map_redirect]
    · exact (Terminator.retarget_eq hreach.1).symm

/-- A block of a function that does not opt out. -/
theorem blockTracked_instrumented :
    BlockTracked BB { BB with insts := (BB.insts.map redirect).flatMap instrument } ↔
      BB.Redirectable := by
  constructor
  · intro h
    refine redirectable_of_resolved h.term fun I hI => h.resolved I ?_
    exact (sublist_flatMap_instrument _).subset hI
  · intro h
    refine ⟨?_, (Terminator.retarget_eq h.1).symm, ?_, hooked_flatMap_instrument _ _⟩
    · rw [← h.map_redirect]
      exact sublist_flatMap_instrument _
    · intro J hJ
      obtain ⟨I, hI, hJI⟩ := List.mem_flatMap.mp hJ
      rw [instrument, List.mem_append, List.mem_cons] at hJI
      rcases hJI with hbefore | rfl | hafter
      · exact hook_resolved (Or.inl hbefore)
      · exact h.resolved J hI
      · exact hook_resolved (Or.inr hafter)

end Blocks

/-! ## Functions and modules -/

/-- A list is related to its image exactly where every element is. -/
theorem forall₂_map_iff {α β : Type} {R : α → β → Prop} {f : α → β} {l : List α} :
    List.Forall₂ R l (l.map f) ↔ ∀ a ∈ l, R a (f a) := by
  induction l with
  | nil => simp
  | cons a l ih => simp [ih]

theorem tracked_raceFunction {F : Func} (h : F.Eligible) :
    Tracked F (raceFunction F) ↔ F.Trackable := by
  have hdef : raceFunction F =
      if F.optsOut then
        { F with blocks := F.blocks.map fun BB => { BB with insts := BB.insts.map redirect } }
      else { F with
        blocks := F.blocks.map fun BB =>
          { BB with insts := (BB.insts.map redirect).flatMap instrument } } := by
    simp [raceFunction, h.1, h.2, Function.comp_def]
  rw [hdef]
  cases hopt : F.optsOut with
  | true =>
      have hiff : F.Trackable ↔ ∀ BB ∈ F.blocks,
          BlockTracked BB { BB with insts := BB.insts.map redirect } := by
        simp [Func.Trackable, hopt, blockTracked_optedOut]
      rw [hiff, ← forall₂_map_iff]
      exact ⟨fun ht => ht.blocks, fun ht => ⟨rfl, ht⟩⟩
  | false =>
      have hiff : F.Trackable ↔ ∀ BB ∈ F.blocks, BlockTracked BB
          { BB with insts := (BB.insts.map redirect).flatMap instrument } := by
        simp [Func.Trackable, hopt, blockTracked_instrumented]
      rw [hiff, ← forall₂_map_iff]
      exact ⟨fun ht => ht.blocks, fun ht => ⟨rfl, ht⟩⟩

/-- Declaring functions leaves the ones that are there in place. -/
theorem getElem?_foldl_getOrInsert (names : List String) :
    ∀ (M : Module) (i : ℕ) (F : Func), M.functions[i]? = some F →
      (names.foldl Module.getOrInsertFunction M).functions[i]? = some F := by
  induction names with
  | nil => exact fun M i F h => h
  | cons name names ih =>
      intro M i F h
      refine ih _ i F ?_
      unfold Module.getOrInsertFunction
      split
      · exact h
      · have hlt := (List.getElem?_eq_some_iff.mp h).1
        rw [List.getElem?_append_left hlt, h]

/-- A function of the module is at the same place of the output. -/
theorem runRaceMode_getElem? {M : Module} {i : ℕ} {F : Func} (h : M.functions[i]? = some F) :
    (runRaceMode M).functions[i]? = some (raceFunction F) := by
  refine getElem?_foldl_getOrInsert _ _ i _ ?_
  rw [List.getElem?_map, getElem?_foldl_getOrInsert hookNames M i F h]
  rfl

/-- **Race mode keeps the synchronization of exactly the trackable functions.** -/
theorem neverDropsSync_iff (M : Module) :
    NeverDropsSync M ↔ ∀ F ∈ M.functions, F.Eligible → F.Trackable := by
  constructor
  · intro h F hF helig
    obtain ⟨i, hi⟩ := List.mem_iff_getElem?.mp hF
    obtain ⟨F', hF', htracked⟩ := h i F hi helig
    rw [runRaceMode_getElem? hi] at hF'
    obtain rfl := Option.some.inj hF'
    exact (tracked_raceFunction helig).mp htracked
  · intro h i F hi helig
    exact ⟨raceFunction F, runRaceMode_getElem? hi,
      (tracked_raceFunction helig).mpr (h F (List.mem_of_getElem? hi) helig)⟩

/-- A destructor in scope turns the call of `pthread_join` into an invoke. -/
def joinInvoke : Module :=
  ⟨[⟨"wait", false, [⟨[], .invoke ⟨.function "pthread_join", true, [.value 0, .null]⟩⟩]⟩]⟩

/-- An atomic store in a function that opts out. -/
def optedOutStore : Module :=
  ⟨[⟨"publish", true, [⟨[.store 0 (.fixed 4) true none], .other⟩]⟩]⟩

/-- Race mode drops the join edge of an invoke, and the release of an atomic store in an
opted-out function. -/
theorem invoke_and_optOut_dropped :
    ¬ NeverDropsSync joinInvoke ∧ ¬ NeverDropsSync optedOutStore := by
  constructor
  · intro h
    obtain ⟨F', hF', htracked⟩ := h 0 _ rfl ⟨rfl, by decide⟩
    rw [runRaceMode_getElem? (F := joinInvoke.functions.head (by decide)) rfl] at hF'
    obtain rfl := Option.some.inj hF'
    have hreach := (tracked_raceFunction ⟨rfl, by decide⟩).mp htracked _ (List.mem_singleton_self _)
    have hnone := hreach.1.1 "pthread_join" rfl
    exact absurd hnone (by decide)
  · intro h
    obtain ⟨F', hF', htracked⟩ := h 0 _ rfl ⟨rfl, by decide⟩
    rw [runRaceMode_getElem? (F := optedOutStore.functions.head (by decide)) rfl] at hF'
    obtain rfl := Option.some.inj hF'
    have hreach := (tracked_raceFunction ⟨rfl, by decide⟩).mp htracked _ (List.mem_singleton_self _)
    have hprev := (hreach.2 rfl).1 0 rfl
    simp at hprev

end Redzone.Pass
