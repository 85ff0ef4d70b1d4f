/-
  Runtime/Steps.lean --- what one event does to the threads of a process.

  `Stepped` has one case per kind of event.  `Process.WF` is what holds of the threads
  in every reachable state, whatever the system answers: a wrapper is left at a place
  that its script has (`Shape`), a thread that is being created has not started, a
  thread that has been joined has exited.
-/
import Redzone.Runtime.Order

set_option autoImplicit false

namespace Redzone.Runtime

open Redzone.Foundation
open Redzone.Race

section Setters

variable {s : Process} {t u : ℕ} {th : Thread} {h : Handle} {todo : Script}

@[simp] theorem setHandle_threads : (s.setHandle t h).threads = s.threads := rfl
@[simp] theorem setHandle_names : (s.setHandle t h).names = s.names := rfl
@[simp] theorem setHandle_syncs : (s.setHandle t h).syncs = s.syncs := rfl
@[simp] theorem setHandle_self : (s.setHandle t h).handles t = h := Function.update_self ..

theorem setHandle_of_ne (hne : u ≠ t) : (s.setHandle t h).handles u = s.handles u :=
  Function.update_of_ne hne ..

@[simp] theorem setThread_handles : (s.setThread t th).handles = s.handles := rfl
@[simp] theorem setThread_names : (s.setThread t th).names = s.names := rfl
@[simp] theorem setThread_syncs : (s.setThread t th).syncs = s.syncs := rfl
@[simp] theorem setThread_registry : (s.setThread t th).registry = s.registry := rfl
@[simp] theorem setThread_shards : (s.setThread t th).shards = s.shards := rfl
@[simp] theorem setThread_races : (s.setThread t th).races = s.races := rfl
@[simp] theorem setThread_gMeta : (s.setThread t th).gMeta = s.gMeta := rfl
@[simp] theorem setThread_self : (s.setThread t th).threads t = th := Function.update_self ..

theorem setThread_of_ne (hne : u ≠ t) : (s.setThread t th).threads u = s.threads u :=
  Function.update_of_ne hne ..

@[simp] theorem setTodo_handles : (s.setTodo t todo).handles = s.handles := rfl
@[simp] theorem setTodo_names : (s.setTodo t todo).names = s.names := rfl
@[simp] theorem setTodo_syncs : (s.setTodo t todo).syncs = s.syncs := rfl
@[simp] theorem setTodo_registry : (s.setTodo t todo).registry = s.registry := rfl
@[simp] theorem setTodo_shards : (s.setTodo t todo).shards = s.shards := rfl
@[simp] theorem setTodo_races : (s.setTodo t todo).races = s.races := rfl
@[simp] theorem setTodo_gMeta : (s.setTodo t todo).gMeta = s.gMeta := rfl

@[simp] theorem setTodo_self :
    (s.setTodo t todo).threads t = { s.threads t with todo := todo } :=
  Function.update_self ..

theorem setTodo_of_ne (hne : u ≠ t) : (s.setTodo t todo).threads u = s.threads u :=
  Function.update_of_ne hne ..

end Setters

/-! ## Steps of a wrapper -/

/-- A step that changes nothing but the place in the wrapper: a real operation, unless it
creates or joins a thread, and allocations that fail. -/
def Micro.quiet (r : Result) : Micro → Bool
  | .lock _ _ | .trylock _ _ | .unlock _ | .waitUnlock _ | .waitLock _ | .atomicOp _ _ => true
  | .recordCreate => !r.alloc
  | .createUntracked | .join _ => r.rc != 0
  | _ => false

/-- A step that does nothing for a thread without a handle. -/
def Micro.needsHandle (r : Result) : Micro → Bool
  | .self => !r.alloc
  | .acquire _ | .release _ | .word _ _ => true
  | _ => false

/-- What a step of a wrapper does, one case per outcome. -/
inductive Effected (s : Process) (t : ℕ) (r : Result) : Micro → Process → Prop
  | quiet {m : Micro} (hm : m.quiet r = true) : Effected s t r m s
  | skipped {m : Micro} (hm : m.needsHandle r = true) (ht : s.handles t = .absent) :
      Effected s t r m s
  | selfInit (ht : s.handles t = .absent) : Effected s t r .self (s.selfInit t)
  | self {th : RzThread} (ht : s.handles t = .live th) : Effected s t r .self s
  | acquire {th : RzThread} {key : ℕ} (ht : s.handles t = .live th) :
      Effected s t r (.acquire key) (s.acquireStep t th key r.alloc)
  | release {th : RzThread} {key : ℕ} (ht : s.handles t = .live th) :
      Effected s t r (.release key) (s.releaseStep t th key r.alloc)
  | recordCreate {parent : RzThread} (halloc : r.alloc = true) (ht : s.handles t = .live parent)
      (hc : s.handles r.child = .absent) (hfresh : r.child ∉ s.names) :
      Effected s t r .recordCreate (s.createStep t parent r.child)
  | create {c : ℕ} (hrc : r.rc = 0) (hmay : s.MayStart c r.value) :
      Effected s t r (.create c) (s.start c r.value)
  | createFailed {c : ℕ} (hrc : r.rc ≠ 0) : Effected s t r (.create c) (s.setHandle c .absent)
  | createUntracked (hrc : r.rc = 0) (hc : s.handles r.child = .absent)
      (hmay : s.MayStart r.child r.value) :
      Effected s t r .createUntracked (s.start r.child r.value)
  | register {thr c : ℕ} :
      Effected s t r (.register thr c) { s with registry := regThread s.registry thr c r.alloc }
  | join {thr : ℕ} (hrc : r.rc = 0) (hjoin : s.Joinable r.child thr)
      (hexit : (s.threads r.child).phase = .exited) :
      Effected s t r (.join thr) (s.setThread r.child { s.threads r.child with joined := true })
  | takeNone {thr joined : ℕ} (hnone : (takeThread s.registry thr).1 = none) :
      Effected s t r (.takeThread thr joined)
        { s with registry := (takeThread s.registry thr).2 }
  | take {thr joined c : ℕ} {parent child : RzThread}
      (hsome : (takeThread s.registry thr).1 = some c) (ht : s.handles t = .live parent)
      (hc : s.handles c = .live child) :
      Effected s t r (.takeThread thr joined)
        ({ s with registry := (takeThread s.registry thr).2 }.setHandle t
          (.live (rzThreadJoin parent child)))
  | freeHandle {c : ℕ} : Effected s t r (.freeHandle c) (s.setHandle c .freed)
  | word {th : RzThread} {a : Access} {w : ℕ} (ht : s.handles t = .live th) :
      Effected s t r (.word a w) (s.wordStep t th a w)
  | finish {a : Access} : Effected s t r (.finish a) (s.finishStep t a)

section Effect

variable {s s₁ : Process} {t u : ℕ} {m : Micro} {r : Result}

/-- A step that needs a handle: it does nothing without one, and is not made on a freed
one. -/
theorem effected_tracked {f : RzThread → Process} (hneeds : m.needsHandle r = true)
    (habsent : s.handles t = .absent → s.effect t r m = some s)
    (hfreed : s.handles t = .freed → s.effect t r m = none)
    (hlive : ∀ th, s.handles t = .live th → s.effect t r m = some (f th))
    (heff : ∀ th, s.handles t = .live th → Effected s t r m (f th))
    (h : s.effect t r m = some s₁) : Effected s t r m s₁ := by
  cases ht : s.handles t with
  | absent =>
      obtain rfl := Option.some.inj ((habsent ht).symm.trans h)
      exact .skipped hneeds ht
  | live th =>
      obtain rfl := Option.some.inj ((hlive th ht).symm.trans h)
      exact heff th ht
  | freed =>
      rw [hfreed ht] at h
      simp at h

theorem effected_acquire {key : ℕ} (h : s.effect t r (.acquire key) = some s₁) :
    Effected s t r (.acquire key) s₁ := by
  refine effected_tracked rfl ?_ ?_ ?_ (fun th ht => .acquire ht) h
  · intro ht
    simp only [Process.effect, ht]
  · intro ht
    simp only [Process.effect, ht]
  · intro th ht
    simp only [Process.effect, ht]

theorem effected_release {key : ℕ} (h : s.effect t r (.release key) = some s₁) :
    Effected s t r (.release key) s₁ := by
  refine effected_tracked rfl ?_ ?_ ?_ (fun th ht => .release ht) h
  · intro ht
    simp only [Process.effect, ht]
  · intro ht
    simp only [Process.effect, ht]
  · intro th ht
    simp only [Process.effect, ht]

theorem effected_word {a : Access} {w : ℕ} (h : s.effect t r (.word a w) = some s₁) :
    Effected s t r (.word a w) s₁ := by
  refine effected_tracked rfl ?_ ?_ ?_ (fun th ht => .word ht) h
  · intro ht
    simp only [Process.effect, ht]
  · intro ht
    simp only [Process.effect, ht]
  · intro th ht
    simp only [Process.effect, ht]

theorem effected_self (h : s.effect t r .self = some s₁) : Effected s t r .self s₁ := by
  simp only [Process.effect] at h
  split at h
  · rename_i ht
    obtain rfl := Option.some.inj h
    cases halloc : r.alloc with
    | true => simpa using Effected.selfInit ht
    | false => simpa using Effected.skipped (m := .self) (by simp [Micro.needsHandle, halloc]) ht
  · rename_i th ht
    obtain rfl := Option.some.inj h
    exact .self ht
  · simp at h

theorem effected_recordCreate (h : s.effect t r .recordCreate = some s₁) :
    Effected s t r .recordCreate s₁ := by
  simp only [Process.effect] at h
  split at h
  · rename_i halloc
    split at h
    · rename_i parent ht hc
      split at h
      · simp at h
      · rename_i hfresh
        obtain rfl := Option.some.inj h
        exact .recordCreate halloc ht hc hfresh
    · simp at h
  · rename_i halloc
    obtain rfl := Option.some.inj h
    exact .quiet (by simpa [Micro.quiet] using halloc)

theorem effected_create {c : ℕ} (h : s.effect t r (.create c) = some s₁) :
    Effected s t r (.create c) s₁ := by
  simp only [Process.effect] at h
  split at h
  · rename_i hrc
    split at h
    · rename_i hmay
      obtain rfl := Option.some.inj h
      exact .create hrc hmay
    · simp at h
  · rename_i hrc
    obtain rfl := Option.some.inj h
    exact .createFailed hrc

theorem effected_createUntracked (h : s.effect t r .createUntracked = some s₁) :
    Effected s t r .createUntracked s₁ := by
  simp only [Process.effect] at h
  split at h
  · rename_i hrc
    split at h
    · rename_i hc
      split at h
      · rename_i hmay
        obtain rfl := Option.some.inj h
        exact .createUntracked hrc hc hmay
      · simp at h
    · simp at h
  · rename_i hrc
    obtain rfl := Option.some.inj h
    exact .quiet (by simpa [Micro.quiet] using hrc)

theorem effected_join {thr : ℕ} (h : s.effect t r (.join thr) = some s₁) :
    Effected s t r (.join thr) s₁ := by
  simp only [Process.effect] at h
  split at h
  · rename_i hrc
    split at h
    · rename_i hjoin
      obtain rfl := Option.some.inj h
      exact .join hrc hjoin.1 hjoin.2
    · simp at h
  · rename_i hrc
    obtain rfl := Option.some.inj h
    exact .quiet (by simpa [Micro.quiet] using hrc)

theorem effected_takeThread {thr joined : ℕ}
    (h : s.effect t r (.takeThread thr joined) = some s₁) :
    Effected s t r (.takeThread thr joined) s₁ := by
  simp only [Process.effect] at h
  split at h
  · rename_i registry htake
    obtain rfl := Option.some.inj h
    have hfst : (takeThread s.registry thr).1 = none := by rw [htake]
    have hsnd : (takeThread s.registry thr).2 = registry := by rw [htake]
    exact hsnd ▸ .takeNone hfst
  · rename_i c registry htake
    split at h
    · rename_i parent child ht hc
      obtain rfl := Option.some.inj h
      have hfst : (takeThread s.registry thr).1 = some c := by rw [htake]
      have hsnd : (takeThread s.registry thr).2 = registry := by rw [htake]
      exact hsnd ▸ .take hfst ht hc
    · simp at h

theorem Process.effected (h : s.effect t r m = some s₁) : Effected s t r m s₁ := by
  cases m with
  | self => exact effected_self h
  | acquire key => exact effected_acquire h
  | release key => exact effected_release h
  | lock | trylock | unlock | waitUnlock | waitLock | atomicOp =>
      obtain rfl := Option.some.inj h
      exact .quiet rfl
  | recordCreate => exact effected_recordCreate h
  | create child => exact effected_create h
  | createUntracked => exact effected_createUntracked h
  | register thr child =>
      obtain rfl := Option.some.inj h
      exact .register
  | join thr => exact effected_join h
  | takeThread thr joined => exact effected_takeThread h
  | freeHandle c =>
      obtain rfl := Option.some.inj h
      exact .freeHandle
  | word a w => exact effected_word h
  | finish a =>
      obtain rfl := Option.some.inj h
      exact .finish

/-! ### Frames -/

@[simp] theorem addHit_handles {tid : ℤ} {w : ℕ} {p : Option RzAccess} :
    (s.addHit t tid w p).handles = s.handles := by
  cases p <;> rfl

@[simp] theorem addHit_registry {tid : ℤ} {w : ℕ} {p : Option RzAccess} :
    (s.addHit t tid w p).registry = s.registry := by
  cases p <;> rfl

@[simp] theorem addHit_syncs {tid : ℤ} {w : ℕ} {p : Option RzAccess} :
    (s.addHit t tid w p).syncs = s.syncs := by
  cases p <;> rfl

@[simp] theorem addHit_shards {tid : ℤ} {w : ℕ} {p : Option RzAccess} :
    (s.addHit t tid w p).shards = s.shards := by
  cases p <;> rfl

@[simp] theorem addHit_names {tid : ℤ} {w : ℕ} {p : Option RzAccess} :
    (s.addHit t tid w p).names = s.names := by
  cases p <;> rfl

theorem addHit_threads {tid : ℤ} {w : ℕ} {p : Option RzAccess} :
    ∃ hits hit, (s.addHit t tid w p).threads =
      Function.update s.threads t { s.threads t with hits := hits, hit := hit } := by
  cases p with
  | none => exact ⟨_, _, (Function.update_eq_self t s.threads).symm⟩
  | some prev => exact ⟨_, _, rfl⟩

@[simp] theorem wordStep_handles {th : RzThread} {a : Access} {w : ℕ} :
    (s.wordStep t th a w).handles = s.handles := addHit_handles

@[simp] theorem wordStep_registry {th : RzThread} {a : Access} {w : ℕ} :
    (s.wordStep t th a w).registry = s.registry := addHit_registry

@[simp] theorem wordStep_syncs {th : RzThread} {a : Access} {w : ℕ} :
    (s.wordStep t th a w).syncs = s.syncs := addHit_syncs

@[simp] theorem wordStep_names {th : RzThread} {a : Access} {w : ℕ} :
    (s.wordStep t th a w).names = s.names := addHit_names

/-- A word changes the hits of the acting thread only. -/
theorem wordStep_threads {th : RzThread} {a : Access} {w : ℕ} :
    ∃ hits hit, (s.wordStep t th a w).threads =
      Function.update s.threads t { s.threads t with hits := hits, hit := hit } :=
  addHit_threads

@[simp] theorem finishStep_handles {a : Access} : (s.finishStep t a).handles = s.handles := by
  unfold Process.finishStep
  split <;> rfl

@[simp] theorem finishStep_threads {a : Access} : (s.finishStep t a).threads = s.threads := by
  unfold Process.finishStep
  split <;> rfl

@[simp] theorem finishStep_names {a : Access} : (s.finishStep t a).names = s.names := by
  unfold Process.finishStep
  split <;> rfl

@[simp] theorem finishStep_registry {a : Access} : (s.finishStep t a).registry = s.registry := by
  unfold Process.finishStep
  split <;> rfl

@[simp] theorem finishStep_syncs {a : Access} : (s.finishStep t a).syncs = s.syncs := by
  unfold Process.finishStep
  split <;> rfl

@[simp] theorem finishStep_shards {a : Access} : (s.finishStep t a).shards = s.shards := by
  unfold Process.finishStep
  split <;> rfl

@[simp] theorem acquireStep_threads {th : RzThread} {key : ℕ} {ok : Bool} :
    (s.acquireStep t th key ok).threads = s.threads := by
  unfold Process.acquireStep
  split <;> rfl

@[simp] theorem acquireStep_names {th : RzThread} {key : ℕ} {ok : Bool} :
    (s.acquireStep t th key ok).names = s.names := by
  unfold Process.acquireStep
  split <;> rfl

@[simp] theorem acquireStep_registry {th : RzThread} {key : ℕ} {ok : Bool} :
    (s.acquireStep t th key ok).registry = s.registry := by
  unfold Process.acquireStep
  split <;> rfl

@[simp] theorem acquireStep_shards {th : RzThread} {key : ℕ} {ok : Bool} :
    (s.acquireStep t th key ok).shards = s.shards := by
  unfold Process.acquireStep
  split <;> rfl

theorem acquireStep_handles_of_ne {th : RzThread} {key : ℕ} {ok : Bool} (hu : u ≠ t) :
    (s.acquireStep t th key ok).handles u = s.handles u := by
  unfold Process.acquireStep
  split
  · exact setHandle_of_ne hu
  · rfl

@[simp] theorem releaseStep_threads {th : RzThread} {key : ℕ} {ok : Bool} :
    (s.releaseStep t th key ok).threads = s.threads := by
  unfold Process.releaseStep
  split <;> rfl

@[simp] theorem releaseStep_names {th : RzThread} {key : ℕ} {ok : Bool} :
    (s.releaseStep t th key ok).names = s.names := by
  unfold Process.releaseStep
  split <;> rfl

@[simp] theorem releaseStep_registry {th : RzThread} {key : ℕ} {ok : Bool} :
    (s.releaseStep t th key ok).registry = s.registry := by
  unfold Process.releaseStep
  split <;> rfl

@[simp] theorem releaseStep_shards {th : RzThread} {key : ℕ} {ok : Bool} :
    (s.releaseStep t th key ok).shards = s.shards := by
  unfold Process.releaseStep
  split <;> rfl

theorem releaseStep_handles_of_ne {th : RzThread} {key : ℕ} {ok : Bool} (hu : u ≠ t) :
    (s.releaseStep t th key ok).handles u = s.handles u := by
  unfold Process.releaseStep
  split
  · exact setHandle_of_ne hu
  · rfl

/-- What a step does to the threads, the place of the acting one apart: it starts one, it
joins one, or it changes the hits of the acting one. -/
theorem effected_threads (h : Effected s t r m s₁) :
    (∃ c, m.starts r = some c ∧ s.MayStart c r.value ∧ s₁ = s.start c r.value ∧
      (m = .create c ∨ m = .createUntracked ∧ c = r.child ∧ s.handles c = .absent)) ∨
    (∃ thr, m = .join thr ∧ r.rc = 0 ∧ s.Joinable r.child thr ∧
      (s.threads r.child).phase = .exited ∧
      s₁ = s.setThread r.child { s.threads r.child with joined := true }) ∨
    (s₁.names = s.names ∧ ∃ hits hit, s₁.threads =
      Function.update s.threads t { s.threads t with hits := hits, hit := hit }) := by
  have hsame : s₁.names = s.names → s₁.threads = s.threads → s₁.names = s.names ∧
      ∃ hits hit, s₁.threads =
        Function.update s.threads t { s.threads t with hits := hits, hit := hit } :=
    fun hn hth => ⟨hn, _, _, hth.trans (Function.update_eq_self t s.threads).symm⟩
  cases h with
  | create hrc hmay =>
      exact Or.inl ⟨_, by simp [Micro.starts, hrc], hmay, rfl, Or.inl rfl⟩
  | createUntracked hrc hc hmay =>
      exact Or.inl ⟨_, by simp [Micro.starts, hrc], hmay, rfl, Or.inr ⟨rfl, rfl, hc⟩⟩
  | join hrc hjoin hexit => exact Or.inr (Or.inl ⟨_, rfl, hrc, hjoin, hexit, rfl⟩)
  | word ht => exact Or.inr (Or.inr ⟨wordStep_names, wordStep_threads⟩)
  | acquire ht => exact Or.inr (Or.inr (hsame (by simp) (by simp)))
  | release ht => exact Or.inr (Or.inr (hsame (by simp) (by simp)))
  | finish => exact Or.inr (Or.inr (hsame (by simp) (by simp)))
  | _ => exact Or.inr (Or.inr (hsame rfl rfl))

/-- The handles that a step of thread `t` changes, besides that of `t`. -/
theorem effected_handles_other (h : Effected s t r m s₁) (hu : u ≠ t) :
    s₁.handles u = s.handles u ∨
    (m = .recordCreate ∧ r.alloc = true ∧ u = r.child ∧ s.handles u = .absent ∧ u ∉ s.names ∧
      ∃ th, s₁.handles u = .live th) ∨
    (m = .create u ∧ r.rc ≠ 0 ∧ s₁.handles u = .absent) ∨
    (m = .freeHandle u ∧ s₁.handles u = .freed) := by
  cases h with
  | selfInit ht => exact Or.inl (setHandle_of_ne hu)
  | acquire ht => exact Or.inl (acquireStep_handles_of_ne hu)
  | release ht => exact Or.inl (releaseStep_handles_of_ne hu)
  | recordCreate halloc ht hc hfresh =>
      by_cases huc : u = r.child
      · subst huc
        exact Or.inr (Or.inl ⟨rfl, halloc, rfl, hc, hfresh, _, setHandle_self⟩)
      · left
        unfold Process.createStep
        rw [setHandle_of_ne huc, setHandle_of_ne hu]
  | @createFailed c hrc =>
      by_cases huc : u = c
      · subst huc
        exact Or.inr (Or.inr (Or.inl ⟨rfl, hrc, setHandle_self⟩))
      · exact Or.inl (setHandle_of_ne huc)
  | take hsome ht hc => exact Or.inl (setHandle_of_ne hu)
  | @freeHandle c =>
      by_cases huc : u = c
      · subst huc
        exact Or.inr (Or.inr (Or.inr ⟨rfl, setHandle_self⟩))
      · exact Or.inl (setHandle_of_ne huc)
  | word ht => exact Or.inl (by simp)
  | finish => exact Or.inl (by simp)
  | _ => exact Or.inl rfl

/-- A step frees the handle of its own thread only in `free`. -/
theorem effected_handles_self (h : Effected s t r m s₁) (hfreed : s₁.handles t = .freed) :
    s.handles t = .freed ∨ m = .freeHandle t := by
  cases h with
  | selfInit ht => simp [Process.selfInit] at hfreed
  | @acquire th key ht =>
      unfold Process.acquireStep at hfreed
      split at hfreed
      · simp at hfreed
      · exact Or.inl hfreed
  | release ht =>
      unfold Process.releaseStep at hfreed
      split at hfreed
      · simp at hfreed
      · exact Or.inl hfreed
  | recordCreate halloc ht hc hfresh =>
      have hne : t ≠ r.child := by
        intro heq
        simp [← heq, ht] at hc
      unfold Process.createStep at hfreed
      rw [setHandle_of_ne hne] at hfreed
      simp at hfreed
  | @createFailed c hrc =>
      by_cases htc : t = c
      · subst htc
        simp at hfreed
      · rw [setHandle_of_ne htc] at hfreed
        exact Or.inl hfreed
  | take hsome ht hc => simp at hfreed
  | @freeHandle c =>
      by_cases htc : t = c
      · exact Or.inr (htc ▸ rfl)
      · rw [setHandle_of_ne htc] at hfreed
        exact Or.inl hfreed
  | word ht => exact Or.inl (by simpa using hfreed)
  | finish => exact Or.inl (by simpa using hfreed)
  | _ => exact Or.inl hfreed

/-- Only `reg_thread` and `take_thread` change the registry. -/
theorem effected_registry (h : Effected s t r m s₁) :
    s₁.registry = s.registry ∨
    (∃ thr c, m = .register thr c ∧ s₁.registry = regThread s.registry thr c r.alloc) ∨
    (∃ thr joined, m = .takeThread thr joined ∧
      s₁.registry = (takeThread s.registry thr).2) := by
  cases h with
  | register => exact Or.inr (Or.inl ⟨_, _, rfl, rfl⟩)
  | takeNone hnone => exact Or.inr (Or.inr ⟨_, _, rfl, rfl⟩)
  | take hsome ht hc => exact Or.inr (Or.inr ⟨_, _, rfl, rfl⟩)
  | acquire ht => exact Or.inl (by simp)
  | release ht => exact Or.inl (by simp)
  | word ht => exact Or.inl (by simp)
  | finish => exact Or.inl (by simp)
  | _ => exact Or.inl rfl

end Effect

/-! ## Events -/

/-- What an event does, one case per kind. -/
inductive Stepped (s : Process) : Event → Process → Prop
  | call {t : ℕ} {c : Call} (hrun : (s.threads t).phase = .running)
      (htodo : (s.threads t).todo = []) :
      Stepped s ⟨t, .call c⟩
        (s.setThread t { s.threads t with todo := c.script, hits := 0, hit := none })
  | micro {t : ℕ} {m : Micro} {r : Result} {rest : Script} {s₁ : Process}
      (hrun : (s.threads t).phase = .running) (htodo : (s.threads t).todo = m :: rest)
      (heff : Effected s t r m s₁) :
      Stepped s ⟨t, .step m r⟩ (s₁.setTodo t (s.next r rest m))
  | exit {t : ℕ} (hrun : (s.threads t).phase = .running) (htodo : (s.threads t).todo = []) :
      Stepped s ⟨t, .exit⟩ (s.setThread t { s.threads t with phase := .exited })
  | detach {t thread c : ℕ} (hrun : (s.threads t).phase = .running)
      (htodo : (s.threads t).todo = []) (hjoin : s.Joinable c thread) :
      Stepped s ⟨t, .detach thread c⟩ (s.setThread c { s.threads c with detached := true })

theorem Process.stepped {s s' : Process} {e : Event} (h : s.step e = some s') : Stepped s e s' := by
  obtain ⟨t, action⟩ := e
  unfold Process.step at h
  simp only at h
  split at h
  · simp at h
  rename_i hrun
  have hrun : (s.threads t).phase = .running := by simpa using hrun
  split at h
  · rename_i c htodo
    obtain rfl := Option.some.inj h
    exact .call hrun htodo
  · rename_i m r m' rest htodo
    split at h
    · rename_i hm
      subst hm
      obtain ⟨s₁, heff, rfl⟩ := Option.map_eq_some_iff.mp h
      exact .micro hrun htodo (Process.effected heff)
    · simp at h
  · rename_i htodo
    obtain rfl := Option.some.inj h
    exact .exit hrun htodo
  · rename_i thread c htodo
    split at h
    · rename_i hjoin
      obtain rfl := Option.some.inj h
      exact .detach hrun htodo hjoin
    · simp at h
  · simp at h

end Redzone.Runtime
