/-
  Runtime/Order.lean --- the order in which the real operations put the steps of a run.

  `rtOrder` reads the ordering edges off the real operations alone: an unlock is before
  every later lock of the same object with a writer on one side, an atomic write before
  every later atomic read of the location (so before those that observe it), a create
  before every step of the child, every step of the child before its join.  The records
  of the runtime take no part in it.
-/
import Redzone.Foundation.Causality
import Redzone.Runtime.Process

set_option autoImplicit false

namespace Redzone.Runtime

open Redzone.Foundation

/-- Where the real operations hand over an order. -/
inductive Obj where
  /-- A lock that was held in this mode and has been given up. -/
  | unlocked (key : ℕ) (mode : Mode)
  /-- A location that has been written atomically. -/
  | atomic (key : ℕ)
  | born (t : ℕ)
  | died (t : ℕ)
  deriving DecidableEq, Repr

/-- A lock comes after the unlocks that exclude it: all of them, or those of writers. -/
def excluding (key : ℕ) : Mode → Finset Obj
  | .exclusive => {.unlocked key .exclusive, .unlocked key .shared}
  | .shared => {.unlocked key .exclusive}

/-- What a step imports by its real operation. -/
def Micro.acquires (r : Result) : Micro → Finset Obj
  | .lock key mode | .trylock key mode => if r.done then excluding key mode else ∅
  | .waitLock key => if r.done then excluding key .exclusive else ∅
  | .atomicOp key kind => if kind = .store then ∅ else {.atomic key}
  | .join _ => if r.rc = 0 then {.died r.child} else ∅
  | _ => ∅

/-- What a step publishes by its real operation. -/
def Micro.releases (r : Result) : Micro → Finset Obj
  | .unlock key => if r.done then {.unlocked key r.mode} else ∅
  | .waitUnlock key => if r.done then {.unlocked key .exclusive} else ∅
  | .atomicOp key kind =>
    match kind with
    | .load => ∅
    | .store => {.atomic key}
    | .rmw => if r.done then {.atomic key} else ∅
  | .create child => if r.rc = 0 then {.born child, .died child} else ∅
  | .createUntracked => if r.rc = 0 then {.born r.child, .died r.child} else ∅
  | _ => ∅

/-- The order edges of the steps of a process. -/
def rtOrder : Signature Event ℕ Obj where
  actor := Event.thread
  acquires e := insert (.born e.thread) <|
    match e.action with
    | .step m r => m.acquires r
    | _ => ∅
  releases e := insert (.died e.thread) <|
    match e.action with
    | .step m r => m.releases r
    | _ => ∅

/-- Happens-before by the real operations. -/
abbrev RealHB (es : List Event) : ℕ → ℕ → Prop := HappensBefore rtOrder es

/-- The access and the word, if the event is the check of one word. -/
def Event.word? (e : Event) : Option (Access × ℕ) :=
  match e.action with
  | .step (.word a w) _ => some (a, w)
  | _ => none

/-- Two accesses to one word by different threads, at least one a write. -/
def Conflict (e f : Event) : Prop :=
  ∃ a b w, e.word? = some (a, w) ∧ f.word? = some (b, w) ∧ e.thread ≠ f.thread ∧
    (a.isWrite = true ∨ b.isWrite = true)

/-- The byte ranges of two accesses have a byte in common. -/
def Access.Overlaps (a b : Access) : Prop :=
  max a.addr b.addr < min (a.addr + a.size) (b.addr + b.size)

instance (a b : Access) : Decidable (a.Overlaps b) := inferInstanceAs (Decidable (_ < _))

/-! ## Pasts -/

/-- The causal past of thread `t` after `es`. -/
def known (es : List Event) (t : ℕ) : Finset ℕ := pastOf rtOrder .born es t

/-- What has been published at `o`. -/
def published (es : List Event) (o : Obj) : Finset ℕ := (knowledge rtOrder es).object o

/-- What the last event of `es ++ [e]` comes after. -/
def incoming (es : List Event) (e : Event) : Finset ℕ := (knowledge rtOrder es).incoming rtOrder e

/-- The thread that a step starts. -/
def Micro.starts (r : Result) : Micro → Option ℕ
  | .create child => if r.rc = 0 then some child else none
  | .createUntracked => if r.rc = 0 then some r.child else none
  | _ => none

/-- The thread that an event starts. -/
def Event.starts (e : Event) : Option ℕ :=
  match e.action with
  | .step m r => m.starts r
  | _ => none

/-- The objects that an event imports from by its real operation. -/
def Event.imports (e : Event) : Finset Obj :=
  match e.action with
  | .step m r => m.acquires r
  | _ => ∅

section Past

variable {es : List Event} {e : Event} {t c : ℕ} {o : Obj}

theorem mem_excluding {key : ℕ} {mode : Mode} (h : o ∈ excluding key mode) :
    ∃ mode', o = .unlocked key mode' := by
  cases mode with
  | exclusive =>
      rcases Finset.mem_insert.mp h with rfl | h
      · exact ⟨_, rfl⟩
      · exact ⟨_, Finset.mem_singleton.mp h⟩
  | shared => exact ⟨_, Finset.mem_singleton.mp h⟩

/-- A step publishes at the birth and the end of the thread that it starts. -/
theorem Micro.lifetime_mem_releases {m : Micro} {r : Result} :
    (.born c ∈ m.releases r ↔ m.starts r = some c) ∧
      (.died c ∈ m.releases r ↔ m.starts r = some c) := by
  cases m with
  | create child | createUntracked =>
      by_cases hrc : r.rc = 0
      · simp [Micro.releases, Micro.starts, hrc, @eq_comm _ c]
      · simp [Micro.releases, Micro.starts, hrc]
  | unlock key | waitUnlock key =>
      cases hdone : r.done <;> simp [Micro.releases, Micro.starts, hdone]
  | atomicOp key kind =>
      cases kind <;> cases hdone : r.done <;> simp [Micro.releases, Micro.starts, hdone]
  | _ => simp [Micro.releases, Micro.starts]

/-- A birth is published by the event that starts the thread. -/
theorem born_mem_releases : .born c ∈ rtOrder.releases e ↔ e.starts = some c := by
  obtain ⟨t, action⟩ := e
  cases action with
  | step m r => simpa [rtOrder, Event.starts] using Micro.lifetime_mem_releases.1
  | _ => simp [rtOrder, Event.starts]

/-- The end of a thread is published by all its events and by the one that starts it. -/
theorem died_mem_releases :
    .died c ∈ rtOrder.releases e ↔ e.thread = c ∨ .born c ∈ rtOrder.releases e := by
  rw [born_mem_releases]
  obtain ⟨t, action⟩ := e
  cases action with
  | step m r =>
      simp only [rtOrder, Event.starts, Finset.mem_insert, Obj.died.injEq,
        Micro.lifetime_mem_releases.2, @eq_comm _ c]
  | _ => simp [rtOrder, Event.starts, @eq_comm _ c]

theorem incoming_eq : incoming es e = known es e.thread ∪ e.imports.biUnion (published es) := by
  refine incoming_eq_pastOf Obj.born ?_
  obtain ⟨t, action⟩ := e
  cases action <;> rfl

theorem known_snoc_actor (h : e.starts ≠ some e.thread) :
    known (es ++ [e]) e.thread = insert es.length (incoming es e) :=
  pastOf_snoc_actor Obj.born (Finset.mem_insert_self ..) fun hrel => h (born_mem_releases.mp hrel)

theorem known_snoc_other (ht : t ≠ e.thread) (h : e.starts ≠ some t) :
    known (es ++ [e]) t = known es t :=
  pastOf_snoc_other ht fun hrel => h (born_mem_releases.mp hrel)

theorem known_snoc_born (ht : t ≠ e.thread) (h : e.starts = some t) :
    known (es ++ [e]) t = known es t ∪ insert es.length (incoming es e) :=
  pastOf_snoc_born ht (born_mem_releases.mpr h)

/-- What the end of a thread hands over is what the thread knew. -/
theorem published_died (es : List Event) (c : ℕ) : published es (.died c) = known es c :=
  object_eq_pastOf (fun _ => died_mem_releases) es

theorem published_snoc_of_mem (h : o ∈ rtOrder.releases e) :
    published (es ++ [e]) o = published es o ∪ insert es.length (incoming es e) :=
  object_snoc_of_mem h

theorem published_snoc_of_notMem (h : o ∉ rtOrder.releases e) :
    published (es ++ [e]) o = published es o :=
  object_snoc_of_notMem h

theorem lt_of_mem_known {i : ℕ} (h : i ∈ known es t) : i < es.length := lt_of_mem_pastOf h

theorem lt_of_mem_published {i : ℕ} (h : i ∈ published es o) : i < es.length :=
  (knowledge_exact rtOrder es).lt_of_mem_object h

theorem lt_of_mem_incoming {i : ℕ} (h : i ∈ incoming es e) : i < es.length :=
  Foundation.lt_of_mem_incoming h

end Past

end Redzone.Runtime
