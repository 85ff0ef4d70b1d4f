/-
  Runtime/Threads.lean --- what holds of the threads in every reachable state.

  A wrapper is left only at places that its script has: `Shape` says how a step and the
  step after it belong together.  `Process.WF` adds what is true of threads, handles and
  the registry whatever the system answers: a thread that is being created has a handle
  and has not started, a thread that has been joined has exited, the entries of the
  registry are threads that have been started, with their `pthread_t` values.
-/
import Redzone.Runtime.Steps

set_option autoImplicit false

namespace Redzone.Runtime

open Redzone.Foundation
open Redzone.Race

/-! ## Places in a script -/

/-- The object at which the real operation of a step publishes. -/
def Micro.publishes : Micro → Option ℕ
  | .unlock key | .waitUnlock key => some key
  | .atomicOp key kind => if kind = .load then none else some key
  | _ => none

/-- The object from which the real operation of a step imports. -/
def Micro.imports : Micro → Option ℕ
  | .lock key _ | .trylock key _ | .waitLock key => some key
  | .atomicOp key kind => if kind = .store then none else some key
  | _ => none

/-- The thread that a step is about whose handle it uses. -/
def Micro.custody : Micro → Option ℕ
  | .takeThread _ c => some c
  | .freeHandle c => some c
  | _ => none

/-- A step that scripts have; the others come up while a wrapper runs. -/
def Micro.static : Micro → Bool
  | .create _ | .createUntracked | .register _ _ | .takeThread _ _ | .freeHandle _ => false
  | _ => true

/-- How a step belongs together with what follows it: a record of the release stands
right before an operation that publishes, a record of the acquire right after one that
imports. -/
structure Link (m : Micro) (rest : Script) : Prop where
  release : ∀ m' ∈ rest.head?, ∀ key, m'.publishes = some key → m = .release key
  acquire : ∀ key, m.imports = some key → ∃ rest', rest = .self :: .acquire key :: rest'
  static : ∀ m' ∈ rest.head?, m'.static = true

/-- Every step of a script is linked to what follows it. -/
def Shape : Script → Prop
  | [] => True
  | m :: rest => Link m rest ∧ Shape rest

/-- A step that publishes and imports nothing may stand before any step that does not
publish. -/
theorem Link.of_local {m : Micro} {rest : Script} (himp : m.imports = none)
    (hrest : ∀ m' ∈ rest.head?, m'.publishes = none ∧ m'.static = true) : Link m rest := by
  refine ⟨?_, ?_, fun m' hm' => (hrest m' hm').2⟩
  · intro m' hm' key hkey
    simp [(hrest m' hm').1] at hkey
  · intro key hkey
    simp [himp] at hkey

theorem shape_mutexLock (key : ℕ) : Shape (rzRtMutexLock key) := by
  refine ⟨.of_local rfl ?_, .of_local rfl ?_, trivial⟩
  · simp [Micro.publishes, Micro.static]
  · simp

/-- A record of an acquire after a real operation that does not publish. -/
theorem shape_acquire {m : Micro} {key : ℕ} (himp : m.imports = some key) :
    Shape (m :: rzRtMutexLock key) := by
  refine ⟨⟨?_, ?_, ?_⟩, shape_mutexLock key⟩
  · simp [rzRtMutexLock, Micro.publishes]
  · rintro key' hkey
    obtain rfl := Option.some.inj (himp.symm.trans hkey)
    exact ⟨[], rfl⟩
  · simp [rzRtMutexLock, Micro.static]

/-- A record of a release before a real operation that publishes. -/
theorem shape_release {m : Micro} {key : ℕ} {rest : Script} (hpub : m.publishes = some key)
    (hstatic : m.static = true) (hshape : Shape (m :: rest)) :
    Shape (rzRtMutexUnlock key ++ m :: rest) := by
  refine ⟨.of_local rfl ?_, ⟨?_, ?_, ?_⟩, hshape⟩
  · simp [Micro.publishes, Micro.static]
  · rintro m' hm' key' hkey
    obtain rfl := Option.some.inj hm'
    obtain rfl := Option.some.inj (hpub.symm.trans hkey)
    rfl
  · intro key' hkey
    simp [Micro.imports] at hkey
  · rintro m' hm'
    obtain rfl := Option.some.inj hm'
    exact hstatic

/-- A single step that imports nothing. -/
theorem shape_single {m : Micro} (himp : m.imports = none) : Shape [m] :=
  ⟨.of_local himp (by simp), trivial⟩

theorem shape_words (a : Access) (ws : List ℕ) : Shape (ws.map (.word a) ++ [.finish a]) := by
  induction ws with
  | nil => exact shape_single rfl
  | cons w ws ih =>
      refine ⟨.of_local rfl ?_, ih⟩
      cases ws <;> simp [Micro.publishes, Micro.static]

theorem shape_accessRange (a : Access) : Shape (accessRange a) := by
  refine ⟨.of_local rfl ?_, shape_words a _⟩
  cases a.words <;> simp [Micro.publishes, Micro.static]

theorem shape_condWait (key : ℕ) : Shape (rzRtPthreadCondWait key) := by
  refine shape_release rfl rfl ⟨.of_local rfl ?_, shape_acquire rfl⟩
  simp [Micro.publishes, Micro.static]

theorem Call.shape (c : Call) : Shape c.script := by
  cases c with
  | mutexLock key => exact shape_mutexLock key
  | mutexUnlock key =>
      refine ⟨.of_local rfl ?_, .of_local rfl ?_, trivial⟩
      · simp [Micro.publishes, Micro.static]
      · simp
  | pthreadMutexLock key | rwlockWrlock key | rwlockRdlock key => exact shape_acquire rfl
  | pthreadMutexTrylock key | rwlockTryrdlock key | rwlockTrywrlock key => exact shape_acquire rfl
  | pthreadMutexUnlock key | rwlockUnlock key => exact shape_release rfl rfl (shape_single rfl)
  | condWait key | condTimedwait key => exact shape_condWait key
  | atomic key kind =>
      cases kind with
      | load => exact shape_acquire rfl
      | store => exact shape_release rfl rfl (shape_single rfl)
      | rmw => exact shape_release rfl rfl (shape_acquire rfl)
  | create | join thread =>
      refine ⟨.of_local rfl ?_, shape_single rfl⟩
      simp [Micro.publishes, Micro.static]
  | read | write => exact shape_accessRange _

/-- A wrapper starts with a step that neither publishes nor comes up while it runs. -/
theorem Call.head_script {c : Call} {m : Micro} (h : m ∈ c.script.head?) :
    m.publishes = none ∧ m.static = true := by
  cases c with
  | atomic key kind => cases kind <;> obtain rfl := Option.some.inj h <;> exact ⟨rfl, rfl⟩
  | _ => obtain rfl := Option.some.inj h; exact ⟨rfl, rfl⟩

/-- The head of a script that is left after a step: it follows the step in the script, or
it has come up. -/
theorem next_cases (s : Process) (r : Result) (rest : Script) (m : Micro) :
    s.next r rest m = rest ∨ s.next r rest m = [] ∨
      ∃ m', s.next r rest m = m' :: rest ∧ m'.static = false ∧ m'.publishes = none ∧
        m'.imports = none ∧ ∀ key, m ≠ .release key := by
  cases m with
  | trylock key mode =>
      simp only [Process.next]
      split
      · exact Or.inl rfl
      · exact Or.inr (Or.inl rfl)
  | recordCreate =>
      refine Or.inr (Or.inr ⟨_, rfl, ?_⟩)
      cases r.alloc <;> exact ⟨rfl, rfl, rfl, by simp⟩
  | create child | join thr =>
      simp only [Process.next]
      split
      · exact Or.inr (Or.inr ⟨_, rfl, rfl, rfl, rfl, by simp⟩)
      · exact Or.inl rfl
  | takeThread thr joined =>
      simp only [Process.next]
      split
      · exact Or.inr (Or.inr ⟨_, rfl, rfl, rfl, rfl, by simp⟩)
      · exact Or.inl rfl
  | _ => exact Or.inl rfl

theorem shape_next {s : Process} {r : Result} {rest : Script} {m : Micro}
    (h : Shape (m :: rest)) : Shape (s.next r rest m) := by
  rcases next_cases s r rest m with heq | heq | ⟨m', heq, -, -, himp, hrel⟩
  · rw [heq]
    exact h.2
  · rw [heq]
    trivial
  · rw [heq]
    refine ⟨.of_local himp fun m'' hm'' => ⟨?_, h.1.static m'' hm''⟩, h.2⟩
    cases hpub : m''.publishes with
    | none => rfl
    | some key => exact absurd (h.1.release m'' hm'' key hpub) (hrel key)

/-- A step that publishes is up only right after the record of its release. -/
theorem publishes_next {s : Process} {r : Result} {rest : Script} {m m' : Micro} {key : ℕ}
    (h : Shape (m :: rest)) (hm' : m' ∈ (s.next r rest m).head?) (hpub : m'.publishes = some key) :
    m = .release key := by
  rcases next_cases s r rest m with heq | heq | ⟨m₁, heq, -, hnone, -⟩
  · rw [heq] at hm'
    exact h.1.release m' hm' key hpub
  · simp [heq] at hm'
  · rw [heq] at hm'
    obtain rfl := Option.some.inj hm'
    simp [hnone] at hpub

/-- A step that no script has is up only where it has come up. -/
theorem next_dynamic {s : Process} {r : Result} {rest : Script} {m m' : Micro}
    (h : Link m rest) (hm' : m' ∈ (s.next r rest m).head?) (hdyn : m'.static = false) :
    (m = .recordCreate ∧ m' = if r.alloc then .create r.child else .createUntracked) ∨
    (∃ c, m = .create c ∧ r.rc = 0 ∧ m' = .register r.value c) ∨
    (∃ thr, m = .join thr ∧ r.rc = 0 ∧ m' = .takeThread thr r.child) ∨
    ∃ thr joined c, m = .takeThread thr joined ∧ (takeThread s.registry thr).1 = some c ∧
      m' = .freeHandle c := by
  have hrest : ¬ m' ∈ rest.head? := fun hmem => by simp [h.static m' hmem] at hdyn
  cases m with
  | trylock key mode =>
      simp only [Process.next] at hm'
      split at hm'
      · exact absurd hm' hrest
      · simp at hm'
  | recordCreate => exact Or.inl ⟨rfl, (Option.some.inj hm').symm⟩
  | create child =>
      simp only [Process.next] at hm'
      split at hm'
      · rename_i hrc
        exact Or.inr (Or.inl ⟨child, rfl, hrc, (Option.some.inj hm').symm⟩)
      · exact absurd hm' hrest
  | join thr =>
      simp only [Process.next] at hm'
      split at hm'
      · rename_i hrc
        exact Or.inr (Or.inr (Or.inl ⟨thr, rfl, hrc, (Option.some.inj hm').symm⟩))
      · exact absurd hm' hrest
  | takeThread thr joined =>
      simp only [Process.next] at hm'
      split at hm'
      · rename_i c hc
        exact Or.inr (Or.inr (Or.inr ⟨thr, joined, c, rfl, hc, (Option.some.inj hm').symm⟩))
      · exact absurd hm' hrest
  | _ => exact absurd hm' hrest

/-! ## Threads, handles and the registry -/

/-- The step a thread is at. -/
def Process.head (s : Process) (t : ℕ) : Option Micro := (s.threads t).todo.head?

/-- What holds of threads, handles and the registry in every reachable state. -/
structure Process.WF (s : Process) : Prop where
  unborn : ∀ t, t ∉ s.names → s.threads t = .unborn
  shape : ∀ t, Shape (s.threads t).todo
  idle : ∀ t, (s.threads t).phase ≠ .running → (s.threads t).todo = []
  joined : ∀ t, (s.threads t).joined = true → (s.threads t).phase = .exited
  creating : ∀ t c, s.head t = some (.create c) → c ∉ s.names ∧ ∃ th, s.handles c = .live th
  creating_unique : ∀ t u c, s.head t = some (.create c) → s.head u = some (.create c) → t = u
  registering : ∀ t v c, s.head t = some (.register v c) → c ∈ s.names ∧ (s.threads c).value = v
  registry : ∀ slot ∈ s.registry, slot.used = true →
    slot.self ∈ s.names ∧ (s.threads slot.self).value = slot.thr
  freeing : ∀ t c, s.head t = some (.freeHandle c) → c ∈ s.names

section WF

variable {s s₁ s' : Process} {e : Event} {t u c : ℕ} {m : Micro} {r : Result} {todo : Script}

theorem Process.WF.running_mem (h : s.WF) (hrun : (s.threads t).phase = .running) :
    t ∈ s.names := by
  by_contra hnot
  simp [h.unborn t hnot, Thread.unborn] at hrun

theorem Process.WF.joined_mem (h : s.WF) (hjoined : (s.threads t).joined = true) :
    t ∈ s.names := by
  by_contra hnot
  simp [h.unborn t hnot, Thread.unborn] at hjoined

/-- The acting thread is in use before an event. -/
theorem Stepped.running (h : Stepped s e s') : (s.threads e.thread).phase = .running := by
  cases h <;> assumption

/-- A thread in use keeps its value, and its phase unless it exits; it is joined only by
a join of another thread. -/
theorem Stepped.thread_of_mem (h : Stepped s e s') (hmem : u ∈ s.names) :
    u ∈ s'.names ∧ (s'.threads u).value = (s.threads u).value ∧
    ((s'.threads u).phase = (s.threads u).phase ∨
      u = e.thread ∧ e.action = .exit ∧ (s'.threads u).phase = .exited) ∧
    ((s'.threads u).joined = (s.threads u).joined ∨
      ∃ thr r, e.action = .step (.join thr) r ∧ r.rc = 0 ∧ u = r.child ∧
        s.Joinable u thr ∧ (s.threads u).phase = .exited ∧ (s'.threads u).joined = true) := by
  cases h with
  | @call t c hrun htodo =>
      by_cases hu : u = t
      · subst hu
        simp [hmem]
      · simp [setThread_of_ne hu, hmem]
  | @micro t m r rest s₁ hrun htodo heff =>
      rcases effected_threads heff with ⟨c, -, hmay, rfl, -⟩ | ⟨thr, rfl, hrc, hjoin, hexit, rfl⟩ |
        ⟨hnames, hits, hit, hthreads⟩
      · have huc : u ≠ c := fun huc => hmay.1 (huc ▸ hmem)
        by_cases hu : u = t
        · subst hu
          simp [Process.start, setThread_of_ne huc, hmem]
        · simp [Process.start, setTodo_of_ne hu, setThread_of_ne huc, hmem]
      · have htc : t ≠ r.child := by
          rintro rfl
          simp [hrun] at hexit
        by_cases hu : u = t
        · subst hu
          simp [setThread_of_ne htc, hmem]
        · rw [setTodo_of_ne hu]
          by_cases huc : u = r.child
          · subst huc
            refine ⟨hmem, by simp, Or.inl (by simp), Or.inr ⟨thr, r, rfl, hrc, rfl, hjoin, hexit, ?_⟩⟩
            simp
          · simp [setThread_of_ne huc, hmem]
      · by_cases hu : u = t
        · subst hu
          simp [hnames, hthreads, hmem]
        · simp [setTodo_of_ne hu, hnames, hthreads, hu, hmem]
  | @exit t hrun htodo =>
      by_cases hu : u = t
      · subst hu
        simp [hmem]
      · simp [setThread_of_ne hu, hmem]
  | @detach t thread c hrun htodo hjoin =>
      by_cases hu : u = c
      · subst hu
        simp [hmem]
      · simp [setThread_of_ne hu, hmem]

/-- A joined thread stays joined. -/
theorem Stepped.joined_mono (h : Stepped s e s') (hwf : s.WF)
    (hjoined : (s.threads u).joined = true) : (s'.threads u).joined = true := by
  rcases (h.thread_of_mem (hwf.joined_mem hjoined)).2.2.2 with hsame | ⟨_, _, _, _, _, _, _, hj⟩
  · exact hsame.trans hjoined
  · exact hj

/-- A thread that is not in use stays so, or is started. -/
theorem Stepped.thread_of_notMem (h : Stepped s e s') (hwf : s.WF) (hmem : u ∉ s.names) :
    (u ∉ s'.names ∧ s'.threads u = s.threads u) ∨
    ∃ m r, e.action = .step m r ∧ m.starts r = some u ∧ s.MayStart u r.value ∧
      u ∈ s'.names ∧ s'.threads u = .started r.value ∧
      (m = .create u ∨ m = .createUntracked ∧ s.handles u = .absent) := by
  have hact : u ≠ e.thread := by
    rintro rfl
    exact hmem (hwf.running_mem h.running)
  cases h with
  | call hrun htodo =>
      rw [setThread_of_ne hact]
      exact Or.inl ⟨hmem, rfl⟩
  | exit hrun htodo =>
      rw [setThread_of_ne hact]
      exact Or.inl ⟨hmem, rfl⟩
  | @detach t thread c hrun htodo hjoin =>
      have huc : u ≠ c := by
        rintro rfl
        exact hmem hjoin.1
      rw [setThread_of_ne huc]
      exact Or.inl ⟨hmem, rfl⟩
  | @micro t m r rest s₁ hrun htodo heff =>
      rw [setTodo_of_ne hact, setTodo_names]
      rcases effected_threads heff with ⟨c, hstart, hmay, rfl, hcreate⟩ |
        ⟨thr, rfl, hrc, hjoin, hexit, rfl⟩ | ⟨hnames, hits, hit, hthreads⟩
      · by_cases huc : u = c
        · subst huc
          refine Or.inr ⟨m, r, rfl, hstart, hmay, by simp [Process.start], ?_, ?_⟩
          · simp [Process.start]
          · exact hcreate.imp id fun ⟨hm, _, habsent⟩ => ⟨hm, habsent⟩
        · left
          simp [Process.start, setThread_of_ne huc, hmem, huc]
      · have huc : u ≠ r.child := by
          rintro rfl
          exact hmem hjoin.1
        left
        simp [setThread_of_ne huc, hmem]
      · left
        rw [hthreads, Function.update_of_ne hact]
        exact ⟨hnames ▸ hmem, rfl⟩

/-- Another thread stays at its place. -/
theorem Stepped.todo_other (h : Stepped s e s') (hwf : s.WF) (hu : u ≠ e.thread) :
    (s'.threads u).todo = (s.threads u).todo := by
  cases h with
  | call hrun htodo => rw [setThread_of_ne hu]
  | exit hrun htodo => rw [setThread_of_ne hu]
  | @detach t thread c hrun htodo hjoin =>
      by_cases huc : u = c
      · subst huc
        simp
      · rw [setThread_of_ne huc]
  | @micro t m r rest s₁ hrun htodo heff =>
      rw [setTodo_of_ne hu]
      rcases effected_threads heff with ⟨c, -, hmay, rfl, -⟩ | ⟨thr, rfl, hrc, hjoin, hexit, rfl⟩ |
        ⟨-, hits, hit, hthreads⟩
      · by_cases huc : u = c
        · subst huc
          simp [Process.start, hwf.unborn u hmay.1, Thread.unborn, Thread.started]
        · simp [Process.start, setThread_of_ne huc]
      · by_cases huc : u = r.child
        · subst huc
          simp
        · rw [setThread_of_ne huc]
      · rw [hthreads, Function.update_of_ne hu]

theorem Stepped.head_other (h : Stepped s e s') (hwf : s.WF) (hu : u ≠ e.thread) :
    s'.head u = s.head u := by
  rw [Process.head, Process.head, h.todo_other hwf hu]

/-- The acting thread's place after an event. -/
theorem Stepped.todo_self (h : Stepped s e s') :
    (∃ c, e.action = .call c ∧ (s'.threads e.thread).todo = c.script) ∨
    (∃ m r rest s₁, e.action = .step m r ∧ (s.threads e.thread).todo = m :: rest ∧
      Effected s e.thread r m s₁ ∧ s' = s₁.setTodo e.thread (s.next r rest m)) ∨
    (s'.threads e.thread).todo = [] := by
  cases h with
  | call hrun htodo => exact Or.inl ⟨_, rfl, by simp⟩
  | micro hrun htodo heff => exact Or.inr (Or.inl ⟨_, _, _, _, rfl, htodo, heff, rfl⟩)
  | exit hrun htodo => exact Or.inr (Or.inr (by simp [htodo]))
  | @detach t thread c hrun htodo hjoin =>
      right; right
      by_cases htc : t = c
      · subst htc
        simp [htodo]
      · simp [setThread_of_ne htc, htodo]

/-- A step that no script has is up for the acting thread only where it has come up. -/
theorem Stepped.head_dynamic (h : Stepped s e s') (hwf : s.WF) {m' : Micro}
    (hhead : s'.head e.thread = some m') (hdyn : m'.static = false) :
    ∃ m r s₁ todo, e.action = .step m r ∧ s.head e.thread = some m ∧
      Effected s e.thread r m s₁ ∧ s' = s₁.setTodo e.thread todo ∧
      ((m = .recordCreate ∧ m' = if r.alloc then .create r.child else .createUntracked) ∨
      (∃ c, m = .create c ∧ r.rc = 0 ∧ m' = .register r.value c) ∨
      (∃ thr, m = .join thr ∧ r.rc = 0 ∧ m' = .takeThread thr r.child) ∨
      ∃ thr joined c, m = .takeThread thr joined ∧ (takeThread s.registry thr).1 = some c ∧
        m' = .freeHandle c) := by
  unfold Process.head at hhead
  rcases h.todo_self with ⟨c, -, htodo⟩ | ⟨m, r, rest, s₁, haction, hold, heff, hs'⟩ | htodo
  · rw [htodo] at hhead
    simp [(Call.head_script hhead).2] at hdyn
  · rw [hs', setTodo_self] at hhead
    have hshape := hwf.shape e.thread
    rw [hold] at hshape
    refine ⟨m, r, s₁, _, haction, ?_, heff, hs', next_dynamic hshape.1 hhead hdyn⟩
    rw [Process.head, hold, List.head?_cons]
  · simp [htodo] at hhead

/-- An event that is a step performs the step its thread is at. -/
theorem Stepped.head_of_step (h : Stepped s e s') (haction : e.action = .step m r) :
    s.head e.thread = some m := by
  cases h with
  | micro hrun htodo heff =>
      obtain ⟨rfl, rfl⟩ := Action.step.inj haction
      rw [Process.head, htodo, List.head?_cons]
  | _ => simp at haction

/-- The handles that an event changes, besides that of the acting thread. -/
theorem Stepped.handles_other (h : Stepped s e s') (hu : u ≠ e.thread) :
    s'.handles u = s.handles u ∨
    (∃ r, e.action = .step .recordCreate r ∧ u = r.child ∧ s.handles u = .absent ∧
      u ∉ s.names ∧ ∃ th, s'.handles u = .live th) ∨
    (∃ r, e.action = .step (.create u) r ∧ s'.handles u = .absent) ∨
    ∃ r, e.action = .step (.freeHandle u) r ∧ s'.handles u = .freed := by
  cases h with
  | @micro t m r rest s₁ hrun htodo heff =>
      rw [setTodo_handles]
      rcases effected_handles_other heff hu with heq | ⟨rfl, -, hc, habsent, hfresh, hlive⟩ |
        ⟨rfl, -, habsent⟩ | ⟨rfl, hfreed⟩
      · exact Or.inl heq
      · exact Or.inr (Or.inl ⟨r, rfl, hc, habsent, hfresh, hlive⟩)
      · exact Or.inr (Or.inr (Or.inl ⟨r, rfl, habsent⟩))
      · exact Or.inr (Or.inr (Or.inr ⟨r, rfl, hfreed⟩))
  | _ => exact Or.inl rfl

theorem Stepped.registry_cases (h : Stepped s e s') :
    s'.registry = s.registry ∨
    (∃ thr c r, e.action = .step (.register thr c) r ∧
      s'.registry = regThread s.registry thr c r.alloc) ∨
    ∃ thr joined r, e.action = .step (.takeThread thr joined) r ∧
      s'.registry = (takeThread s.registry thr).2 := by
  cases h with
  | @micro t m r rest s₁ hrun htodo heff =>
      rw [setTodo_registry]
      rcases effected_registry heff with heq | ⟨thr, c, rfl, heq⟩ | ⟨thr, joined, rfl, heq⟩
      · exact Or.inl heq
      · exact Or.inr (Or.inl ⟨thr, c, r, rfl, heq⟩)
      · exact Or.inr (Or.inr ⟨thr, joined, r, rfl, heq⟩)
  | _ => exact Or.inl rfl

/-- A thread that comes to be created is new, and has a handle. -/
theorem Stepped.creating_self (h : Stepped s e s') (hwf : s.WF)
    (hhead : s'.head e.thread = some (.create c)) :
    s.handles c = .absent ∧ c ∉ s'.names ∧ ∃ th, s'.handles c = .live th := by
  obtain ⟨m, r, s₁, todo, -, -, heff, rfl, hcases⟩ := h.head_dynamic hwf hhead rfl
  rcases hcases with ⟨rfl, hm⟩ | ⟨c', -, -, hm⟩ | ⟨thr, -, -, hm⟩ | ⟨thr, joined, c', -, -, hm⟩
  · cases heff with
    | quiet hquiet =>
        have halloc : r.alloc = false := by simpa [Micro.quiet] using hquiet
        simp [halloc] at hm
    | skipped hneeds => simp [Micro.needsHandle] at hneeds
    | recordCreate halloc ht hc hfresh =>
        rw [if_pos halloc] at hm
        obtain rfl := Micro.create.inj hm
        exact ⟨hc, hfresh, _, setHandle_self⟩
  · simp at hm
  · simp at hm
  · simp at hm

theorem Process.WF.unborn_step (h : s.WF) (hst : Stepped s e s') (ht : t ∉ s'.names) :
    s'.threads t = .unborn := by
  by_cases hmem : t ∈ s.names
  · exact absurd (hst.thread_of_mem hmem).1 ht
  · rcases hst.thread_of_notMem h hmem with ⟨-, hsame⟩ | ⟨m, r, -, -, -, hmem', -⟩
    · exact hsame.trans (h.unborn t hmem)
    · exact absurd hmem' ht

theorem Process.WF.shape_step (h : s.WF) (hst : Stepped s e s') (t : ℕ) :
    Shape (s'.threads t).todo := by
  by_cases ht : t = e.thread
  · subst ht
    rcases hst.todo_self with ⟨c, -, htodo⟩ | ⟨m, r, rest, s₁, -, hold, -, rfl⟩ | htodo
    · rw [htodo]
      exact c.shape
    · have hshape := h.shape e.thread
      rw [hold] at hshape
      simpa using shape_next hshape
    · rw [htodo]
      trivial
  · rw [hst.todo_other h ht]
    exact h.shape t

theorem Process.WF.idle_step (h : s.WF) (hst : Stepped s e s')
    (hphase : (s'.threads t).phase ≠ .running) : (s'.threads t).todo = [] := by
  by_cases hmem : t ∈ s.names
  · rcases (hst.thread_of_mem hmem).2.2.1 with hsame | ⟨rfl, hexit, -⟩
    · have ht : t ≠ e.thread := by
        rintro rfl
        exact hphase (hsame.trans hst.running)
      rw [hst.todo_other h ht]
      exact h.idle t (hsame ▸ hphase)
    · rcases hst.todo_self with ⟨c, haction, -⟩ | ⟨m, r, rest, s₁, haction, -⟩ | htodo
      · simp [haction] at hexit
      · simp [haction] at hexit
      · exact htodo
  · rcases hst.thread_of_notMem h hmem with ⟨-, hsame⟩ | ⟨m, r, -, -, -, -, hnew, -⟩
    · rw [hsame, h.unborn t hmem]
      rfl
    · rw [hnew]
      rfl

theorem Process.WF.joined_step (h : s.WF) (hst : Stepped s e s')
    (hjoined : (s'.threads t).joined = true) : (s'.threads t).phase = .exited := by
  by_cases hmem : t ∈ s.names
  · obtain ⟨-, -, hphase, hjoin⟩ := hst.thread_of_mem hmem
    have hexited : (s.threads t).phase = .exited := by
      rcases hjoin with hsame | ⟨thr, r, -, -, -, -, hexited, -⟩
      · exact h.joined t (hsame ▸ hjoined)
      · exact hexited
    rcases hphase with hsame | ⟨-, -, hexit⟩
    · exact hsame.trans hexited
    · exact hexit
  · rcases hst.thread_of_notMem h hmem with ⟨-, hsame⟩ | ⟨m, r, -, -, -, -, hnew, -⟩
    · simp [hsame, h.unborn t hmem, Thread.unborn] at hjoined
    · simp [hnew, Thread.started] at hjoined

/-- A thread another thread is creating stays outside the process, with its handle. -/
theorem Process.WF.creating_other (h : s.WF) (hst : Stepped s e s') (ht : t ≠ e.thread)
    (hhead : s.head t = some (.create c)) : c ∉ s'.names ∧ ∃ th, s'.handles c = .live th := by
  obtain ⟨hfresh, th, hlive⟩ := h.creating t c hhead
  have hother : ∀ r, e.action ≠ .step (.create c) r := fun r haction =>
    ht (h.creating_unique t e.thread c hhead (hst.head_of_step haction))
  have hact : c ≠ e.thread := by
    rintro rfl
    exact hfresh (h.running_mem hst.running)
  constructor
  · rcases hst.thread_of_notMem h hfresh with ⟨hnot, -⟩ |
      ⟨m, r, haction, -, -, -, -, rfl | ⟨-, habsent⟩⟩
    · exact hnot
    · exact absurd haction (hother r)
    · simp [hlive] at habsent
  · rcases hst.handles_other hact with hsame | ⟨r, -, -, -, -, hth⟩ | ⟨r, haction, -⟩ |
      ⟨r, haction, -⟩
    · exact ⟨th, hsame.trans hlive⟩
    · exact hth
    · exact absurd haction (hother r)
    · exact absurd (h.freeing e.thread c (hst.head_of_step haction)) hfresh

theorem Process.WF.creating_step (h : s.WF) (hst : Stepped s e s')
    (hhead : s'.head t = some (.create c)) : c ∉ s'.names ∧ ∃ th, s'.handles c = .live th := by
  by_cases ht : t = e.thread
  · subst ht
    exact (hst.creating_self h hhead).2
  · rw [hst.head_other h ht] at hhead
    exact h.creating_other hst ht hhead

/-- The acting thread creates a thread no other thread is creating. -/
theorem Process.WF.creating_unique_self (h : s.WF) (hst : Stepped s e s')
    (ht : s'.head e.thread = some (.create c)) (hu : s'.head u = some (.create c)) :
    e.thread = u := by
  by_contra hne
  rw [hst.head_other h (Ne.symm hne)] at hu
  obtain ⟨-, th, hlive⟩ := h.creating u c hu
  simp [(hst.creating_self h ht).1] at hlive

/-- What one thread at most has before an event, and the acting thread gets only where no
other one has it, one thread at most has afterwards. -/
theorem unique_of_acting {P Q : ℕ → Prop} {a : ℕ} (hother : ∀ u, u ≠ a → Q u → P u)
    (hone : ∀ u, Q a → Q u → a = u) (hold : ∀ t u, P t → P u → t = u) (ht : Q t) (hu : Q u) :
    t = u := by
  by_cases hta : t = a
  · subst hta
    exact hone u ht hu
  · by_cases hua : u = a
    · subst hua
      exact (hone t hu ht).symm
    · exact hold t u (hother t hta ht) (hother u hua hu)

theorem Process.WF.creating_unique_step (h : s.WF) (hst : Stepped s e s')
    (ht : s'.head t = some (.create c)) (hu : s'.head u = some (.create c)) : t = u := by
  refine unique_of_acting (P := fun t => s.head t = some (.create c))
    (Q := fun t => s'.head t = some (.create c)) (fun u hne hu => ?_)
    (fun _ => h.creating_unique_self hst) (fun t u => h.creating_unique t u c) ht hu
  rw [← hst.head_other h hne]
  exact hu

/-- What the acting thread is about to register it has just started. -/
theorem Process.WF.registering_self {v : ℕ} (h : s.WF) (hst : Stepped s e s')
    (hhead : s'.head e.thread = some (.register v c)) :
    c ∈ s'.names ∧ (s'.threads c).value = v := by
  obtain ⟨m, r, s₁, todo, -, -, heff, rfl, hcases⟩ := hst.head_dynamic h hhead rfl
  rcases hcases with ⟨-, hm⟩ | ⟨c', rfl, hrc, hm⟩ | ⟨thr, -, -, hm⟩ | ⟨thr, joined, c', -, -, hm⟩
  · cases halloc : r.alloc <;> simp [halloc] at hm
  · obtain ⟨rfl, rfl⟩ := Micro.register.inj hm
    cases heff with
    | quiet hquiet => simp [Micro.quiet] at hquiet
    | skipped hneeds => simp [Micro.needsHandle] at hneeds
    | createFailed hrc' => exact absurd hrc hrc'
    | create _ hmay =>
        have hne : c ≠ e.thread := by
          rintro rfl
          exact hmay.1 (h.running_mem hst.running)
        refine ⟨List.mem_cons_self .., ?_⟩
        rw [setTodo_of_ne hne]
        simp [Process.start, Thread.started]
  · simp at hm
  · simp at hm

/-- A thread of the process keeps the value it was started with. -/
theorem Stepped.value_kept {v : ℕ} (hst : Stepped s e s')
    (h : c ∈ s.names ∧ (s.threads c).value = v) : c ∈ s'.names ∧ (s'.threads c).value = v := by
  obtain ⟨hmem', hsame, -⟩ := hst.thread_of_mem h.1
  exact ⟨hmem', hsame.trans h.2⟩

theorem Process.WF.registering_step {v : ℕ} (h : s.WF) (hst : Stepped s e s')
    (hhead : s'.head t = some (.register v c)) : c ∈ s'.names ∧ (s'.threads c).value = v := by
  by_cases ht : t = e.thread
  · subst ht
    exact h.registering_self hst hhead
  · rw [hst.head_other h ht] at hhead
    exact hst.value_kept (h.registering t v c hhead)

theorem Process.WF.registry_step {slot : ThrEnt} (h : s.WF) (hst : Stepped s e s')
    (hslot : slot ∈ s'.registry) (hused : slot.used = true) :
    slot.self ∈ s'.names ∧ (s'.threads slot.self).value = slot.thr := by
  rcases hst.registry_cases with heq | ⟨thr, c, r, haction, heq⟩ | ⟨thr, joined, r, -, heq⟩
  · exact hst.value_kept (h.registry slot (heq ▸ hslot) hused)
  · rw [heq] at hslot
    rcases mem_regThread hslot hused with rfl | hmem
    · exact hst.value_kept (h.registering _ _ _ (hst.head_of_step haction))
    · exact hst.value_kept (h.registry slot hmem hused)
  · rw [heq] at hslot
    exact hst.value_kept (h.registry slot (mem_takeThread hslot hused) hused)

theorem Process.WF.freeing_step (h : s.WF) (hst : Stepped s e s')
    (hhead : s'.head t = some (.freeHandle c)) : c ∈ s'.names := by
  by_cases ht : t = e.thread
  · subst ht
    obtain ⟨m, r, s₁, todo, -, -, -, -, hcases⟩ := hst.head_dynamic h hhead rfl
    rcases hcases with ⟨-, hm⟩ | ⟨c', -, -, hm⟩ | ⟨thr, -, -, hm⟩ | ⟨thr, joined, c', -, htake, hm⟩
    · cases halloc : r.alloc <;> simp [halloc] at hm
    · simp at hm
    · simp at hm
    · obtain rfl := Micro.freeHandle.inj hm
      obtain ⟨slot, hslot, hused, -, rfl⟩ := takeThread_eq_some htake
      exact (hst.thread_of_mem (h.registry slot hslot hused).1).1
  · rw [hst.head_other h ht] at hhead
    exact (hst.thread_of_mem (h.freeing t c hhead)).1

/-- A step keeps each part of the invariant. -/
theorem Process.WF.step (h : s.WF) (hst : Stepped s e s') : s'.WF where
  unborn _ ht := h.unborn_step hst ht
  shape t := h.shape_step hst t
  idle _ hphase := h.idle_step hst hphase
  joined _ hjoined := h.joined_step hst hjoined
  creating _ _ hhead := h.creating_step hst hhead
  creating_unique _ _ _ ht hu := h.creating_unique_step hst ht hu
  registering _ _ _ hhead := h.registering_step hst hhead
  registry _ hslot hused := h.registry_step hst hslot hused
  freeing _ _ hhead := h.freeing_step hst hhead

theorem initial_head (i : Init) (t : ℕ) : (Process.initial i).head t = none := by
  by_cases ht : t = 0 <;>
    simp [Process.head, Process.initial, ht, Thread.started, Thread.unborn]

theorem wf_initial (i : Init) : (Process.initial i).WF := by
  have htodo : ∀ t, ((Process.initial i).threads t).todo = [] := by
    intro t
    simpa [Process.head] using initial_head i t
  refine ⟨?_, fun t => htodo t ▸ trivial, fun t _ => htodo t, ?_, ?_, ?_, ?_, ?_, ?_⟩
  · intro t ht
    simp only [Process.initial, List.mem_singleton] at ht ⊢
    rw [if_neg ht]
  · intro t
    by_cases ht : t = 0 <;> simp [Process.initial, ht, Thread.started, Thread.unborn]
  · intro t c h
    simp [initial_head] at h
  · intro t u c h
    simp [initial_head] at h
  · intro t v c h
    simp [initial_head] at h
  · intro slot h
    simp [Process.initial] at h
  · intro t c h
    simp [initial_head] at h

end WF

end Redzone.Runtime
