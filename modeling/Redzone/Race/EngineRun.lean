/-
  Race/EngineRun.lean --- runs of the happens-before engine.

  The engine is driven by six calls: `rz_thread_init`, `rz_thread_create`,
  `rz_thread_join`, `rz_mutex_acquire`, `rz_mutex_release` and
  `rz_race_access_loc`.  A run is a list of such calls performed from a state that
  `rz_race_state_init_n` has set up.  Thread handles and sync objects are named by
  numbers; a name is used for one handle only, so a run may have any number of
  threads, also more than the clock tracks.

  `eventOrder` reads off a call which orderings it takes part in; happens-before is
  the transitive closure of those edges and never mentions a clock.
-/
import Redzone.Foundation.Causality
import Redzone.Foundation.Transition
import Redzone.Race.Table

set_option autoImplicit false

namespace Redzone.Race

open Redzone.Foundation

/-- One call into the engine. -/
inductive Event where
  /-- `rz_thread_init` -/
  | init (t : ℕ)
  /-- `rz_thread_create` -/
  | create (parent child : ℕ)
  /-- `rz_thread_join` -/
  | join (parent child : ℕ)
  /-- `rz_mutex_acquire` -/
  | acquire (t m : ℕ)
  /-- `rz_mutex_release` -/
  | release (t m : ℕ)
  /-- `rz_race_access_loc` -/
  | access (t addr : ℕ) (isWrite : Bool) (file : Option String) (line : ℤ)
  deriving DecidableEq, Repr

/-- The engine with the handles and sync objects its callers own. -/
structure EngineState where
  race : RzRaceState
  threads : ℕ → Option RzThread
  syncs : ℕ → RzSync

namespace EngineState

/-- An initialised engine: no thread yet, every sync object fresh. -/
def initial (nbuckets : ℕ) : EngineState :=
  ⟨rzRaceStateInitN nbuckets true, fun _ => none, fun _ => rzSyncInit⟩

/-- Store the handle `th` under the name `t`. -/
def setThread (s : EngineState) (t : ℕ) (th : RzThread) : EngineState :=
  { s with threads := Function.update s.threads t (some th) }

/-- Perform one call.  Not possible: a call on a handle that is not initialised, or
a second initialisation of one. -/
def step (s : EngineState) : Event → Option EngineState
  | .init t =>
    if (s.threads t).isSome then none
    else
      let (th, race) := rzThreadInit s.race
      some ({ s with race := race }.setThread t th)
  | .create p c =>
    match s.threads p, s.threads c with
    | some parent, none =>
      let (parent, child, race) := rzThreadCreate s.race parent
      some (({ s with race := race }.setThread p parent).setThread c child)
    | _, _ => none
  | .join p c =>
    match s.threads p, s.threads c with
    | some parent, some child => some (s.setThread p (rzThreadJoin parent child))
    | _, _ => none
  | .acquire t m =>
    match s.threads t with
    | some th => some (s.setThread t (rzMutexAcquire th (s.syncs m)))
    | none => none
  | .release t m =>
    match s.threads t with
    | some th =>
      let (th, sync) := rzMutexRelease th (s.syncs m)
      some { s.setThread t th with syncs := Function.update s.syncs m sync }
    | none => none
  | .access t addr isWrite file line =>
    match s.threads t with
    | some th =>
      some { s with race := (rzRaceAccessLoc s.race th addr isWrite file line).2 }
    | none => none

/-- What `rz_race_access_loc` hands back for a call made in state `s`: the prior
access it reports.  It returns 1 exactly when there is one. -/
def verdict (s : EngineState) : Event → Option RzAccess
  | .access t addr isWrite file line =>
    (s.threads t).bind fun th => (rzRaceAccessLoc s.race th addr isWrite file line).1
  | _ => none

/-- No tick of the call overflows a 64-bit epoch. -/
def TicksFit (s : EngineState) : Event → Prop
  | .create p _ =>
    ∀ th ∈ s.threads p, TickFits th.clock th.tid ∧ TickFits th.clock s.race.nextTid
  | .release t _ => ∀ th ∈ s.threads t, TickFits th.clock th.tid
  | _ => True

instance (s : EngineState) : (e : Event) → Decidable (s.TicksFit e)
  | .create p _ => inferInstanceAs (Decidable (∀ th ∈ s.threads p,
      TickFits th.clock th.tid ∧ TickFits th.clock s.race.nextTid))
  | .release t _ => inferInstanceAs (Decidable (∀ th ∈ s.threads t, TickFits th.clock th.tid))
  | .init _ | .join _ _ | .acquire _ _ | .access .. => .isTrue trivial

end EngineState

/-- The state reached by performing `es` on a fresh engine. -/
def engineRun (nbuckets : ℕ) (es : List Event) : Option EngineState :=
  run EngineState.step (.initial nbuckets) es

/-- No epoch overflows anywhere in the run. -/
def EpochsFit (nbuckets : ℕ) (es : List Event) : Prop :=
  EveryStep EngineState.step EngineState.TicksFit (.initial nbuckets) es

instance (nbuckets : ℕ) (es : List Event) : Decidable (EpochsFit nbuckets es) :=
  decidableEveryStep ..

/-! ## The order of events -/

namespace Event

/-- The thread that makes the call. -/
def actor : Event → ℕ
  | .init t => t
  | .create p _ => p
  | .join p _ => p
  | .acquire t _ => t
  | .release t _ => t
  | .access t .. => t

end Event

/-- Where orderings are handed over: a sync object, the start of a thread, the end
of a thread. -/
inductive Handover where
  | sync (m : ℕ)
  | born (t : ℕ)
  | died (t : ℕ)
  deriving DecidableEq, Repr

/-- The ordering edges of the six calls.  A release is before every later acquire of
the same object, a create before every step of the child, every step of the child
before its join.  The create is before the join of the child also where the child
takes no step of its own. -/
def eventOrder : Signature Event ℕ Handover where
  actor := Event.actor
  acquires
    | .join p c => {.born p, .died c}
    | .acquire t m => {.born t, .sync m}
    | e => {.born e.actor}
  releases
    | .create p c => {.died p, .born c, .died c}
    | .release t m => {.died t, .sync m}
    | e => {.died e.actor}

/-- Happens-before of engine calls, between positions of the run. -/
abbrev EngineHB (es : List Event) : ℕ → ℕ → Prop := HappensBefore eventOrder es

/-- A joined thread takes no further step. -/
def JoinedStops (es : List Event) : Prop :=
  es.Pairwise fun e f => match e with
    | .join _ c => f.actor ≠ c
    | _ => True

instance (es : List Event) : Decidable (JoinedStops es) :=
  @List.instDecidablePairwise _ _ (fun e f => by cases e <;> infer_instance) es

/-- Two accesses to one 8-byte word by different threads, at least one a write. -/
def Conflict : Event → Event → Prop
  | .access t addr isWrite _ _, .access u addr' isWrite' _ _ =>
    wordOf addr = wordOf addr' ∧ t ≠ u ∧ (isWrite = true ∨ isWrite' = true)
  | _, _ => False

instance (e f : Event) : Decidable (Conflict e f) := by
  cases e <;> cases f <;> unfold Conflict <;> infer_instance

/-- The call at position `j` of the run is an access that returns 1. -/
def Reports (nbuckets : ℕ) (es : List Event) (j : ℕ) : Prop :=
  ∃ s e, engineRun nbuckets (es.take j) = some s ∧ es[j]? = some e ∧
    (s.verdict e).isSome = true

end Redzone.Race
