/-
  Runtime/Schedules.lean --- what the detector finds depends on the order of dependent
  operations only.

  The state of the ideal engine consists of pieces: the clock of each thread, that of each
  object, the cells of each word, the next thread id, and the races that each thread has
  found.  Every operation touches a few of them and writes fewer still, so that two
  operations of different threads are independent unless one of them writes a clock which
  the other one looks at, both give out thread ids, or both are on the same word.
-/
import Redzone.Foundation.Schedules
import Redzone.Runtime.Sharding

set_option autoImplicit false

namespace Redzone.Runtime

open Redzone.Foundation
open Redzone.Race

/-! ## The pieces of the engine -/

inductive Piece where
  | thread (t : ℕ)
  | clock (key : ℕ)
  | cells (word : ℕ)
  | nextTid
  | found (t : ℕ)
  deriving DecidableEq, Repr

def Piece.Value : Piece → Type
  | .thread _ => Option RzThread
  | .clock _ => RzVc
  | .cells _ => Cells
  | .nextTid => ℤ
  | .found _ => List Hit

namespace Unsharded

def piece : (p : Piece) → Unsharded → p.Value
  | .thread t, u => u.threads t
  | .clock key, u => u.clocks key
  | .cells word, u => u.cells word
  | .nextTid, u => u.nextTid
  | .found t, u => u.found t

theorem ext_pieces {u v : Unsharded} (h : ∀ p, u.piece p = v.piece p) : u = v := by
  obtain ⟨cells, clocks, threads, nextTid, found⟩ := u
  obtain ⟨cells', clocks', threads', nextTid', found'⟩ := v
  obtain rfl : cells = cells' := funext fun w => h (.cells w)
  obtain rfl : clocks = clocks' := funext fun key => h (.clock key)
  obtain rfl : threads = threads' := funext fun t => h (.thread t)
  obtain rfl : nextTid = nextTid' := h .nextTid
  obtain rfl : found = found' := funext fun t => h (.found t)
  rfl

end Unsharded

namespace Op

/-- The pieces that an operation looks at or writes. -/
def touches : Op → List Piece
  | .enter t => [.found t]
  | .init t => [.thread t, .nextTid]
  | .acquire t key => [.thread t, .clock key]
  | .release t key => [.thread t, .clock key]
  | .create t child => [.thread t, .thread child, .nextTid]
  | .join t child => [.thread t, .thread child]
  | .drop t => [.thread t]
  | .access t word _ _ _ => [.thread t, .cells word, .found t]

/-- The pieces that an operation writes. -/
def writes : Op → List Piece
  | .enter t => [.found t]
  | .init t => [.thread t, .nextTid]
  | .acquire t _ => [.thread t]
  | .release t key => [.thread t, .clock key]
  | .create t child => [.thread t, .thread child, .nextTid]
  | .join t _ => [.thread t]
  | .drop t => [.thread t]
  | .access t word _ _ _ => [.cells word, .found t]

/-- `rz_thread_init` has nothing to do for a thread that has a clock. -/
def idle (u : Unsharded) : Op → Bool
  | .init t => (u.threads t).isSome
  | _ => false

/-- One of the operations writes what the other one touches. -/
def Dependent (a b : Op) : Prop := ¬ Unrelated touches writes a b

instance : DecidableRel Dependent := fun a b =>
  inferInstanceAs (Decidable (¬ Unrelated touches writes a b))

end Op

section Footprint

open Unsharded

variable {a b : Op} {p : Piece} {u v : Unsharded} {t key word : ℕ}

/-- Writing a piece leaves the others alone. -/
theorem piece_setThread {th : Option RzThread} (h : p ≠ .thread t) :
    (u.setThread t th).piece p = u.piece p := by
  cases p with
  | thread x => exact Unsharded.setThread_of_ne fun hx => h (congrArg Piece.thread hx)
  | _ => rfl

theorem piece_setClock {c : RzVc} (h : p ≠ .clock key) :
    (u.setClock key c).piece p = u.piece p := by
  cases p with
  | clock x => exact setClock_of_ne fun hx => h (congrArg Piece.clock hx)
  | _ => rfl

theorem piece_setCells {cells : Cells} (h : p ≠ .cells word) :
    (u.setCells word cells).piece p = u.piece p := by
  cases p with
  | cells x => exact setCells_of_ne fun hx => h (congrArg Piece.cells hx)
  | _ => rfl

theorem piece_setFound {hits : List Hit} (h : p ≠ .found t) :
    (u.setFound t hits).piece p = u.piece p := by
  cases p with
  | found x => exact setFound_of_ne fun hx => h (congrArg Piece.found hx)
  | _ => rfl

theorem piece_setNextTid {n : ℤ} (h : p ≠ .nextTid) :
    ({ u with nextTid := n } : Unsharded).piece p = u.piece p := by
  cases p with
  | nextTid => exact absurd rfl h
  | _ => rfl

/-- An operation writes nothing else. -/
theorem piece_act (h : p ∉ a.writes) : (a.act u).piece p = u.piece p := by
  cases a with
  | enter t => exact piece_setFound (by simpa [Op.writes] using h)
  | init t =>
      obtain ⟨ht, hn⟩ : p ≠ .thread t ∧ p ≠ .nextTid := by simpa [Op.writes] using h
      rw [Op.act]
      split
      · rfl
      · rw [Unsharded.init, piece_setThread ht, piece_setNextTid hn]
  | acquire t key =>
      have ht : p ≠ .thread t := by simpa [Op.writes] using h
      rw [Op.act]
      cases u.threads t with
      | none => rfl
      | some th => exact piece_setThread ht
  | release t key =>
      obtain ⟨ht, hk⟩ : p ≠ .thread t ∧ p ≠ .clock key := by simpa [Op.writes] using h
      rw [Op.act]
      cases u.threads t with
      | none => rfl
      | some th => exact (piece_setThread ht).trans (piece_setClock hk)
  | create t child =>
      obtain ⟨ht, hc, hn⟩ : p ≠ .thread t ∧ p ≠ .thread child ∧ p ≠ .nextTid := by
        simpa [Op.writes] using h
      rw [Op.act]
      cases u.threads t with
      | none => rfl
      | some th =>
          exact (piece_setThread hc).trans ((piece_setThread ht).trans (piece_setNextTid hn))
  | join t child =>
      have ht : p ≠ .thread t := by simpa [Op.writes] using h
      rw [Op.act]
      cases u.threads t with
      | none => rfl
      | some th =>
          cases u.threads child with
          | none => rfl
          | some c => exact piece_setThread ht
  | drop t => exact piece_setThread (by simpa [Op.writes] using h)
  | access t word isWrite file line =>
      obtain ⟨hw, hf⟩ : p ≠ .cells word ∧ p ≠ .found t := by simpa [Op.writes] using h
      rw [Op.act]
      cases u.threads t with
      | none => rfl
      | some th => exact (piece_setFound hf).trans (piece_setCells hw)

/-- The same write to engines that agree on a piece. -/
theorem setThread_congr {th : Option RzThread} (h : u.piece p = v.piece p) :
    (u.setThread t th).piece p = (v.setThread t th).piece p := by
  by_cases hp : p = .thread t
  · subst hp
    exact Unsharded.setThread_self.trans Unsharded.setThread_self.symm
  · rw [piece_setThread hp, piece_setThread hp, h]

theorem setClock_congr {c : RzVc} (h : u.piece p = v.piece p) :
    (u.setClock key c).piece p = (v.setClock key c).piece p := by
  by_cases hp : p = .clock key
  · subst hp
    exact setClock_self.trans setClock_self.symm
  · rw [piece_setClock hp, piece_setClock hp, h]

theorem setCells_congr {cells : Cells} (h : u.piece p = v.piece p) :
    (u.setCells word cells).piece p = (v.setCells word cells).piece p := by
  by_cases hp : p = .cells word
  · subst hp
    exact setCells_self.trans setCells_self.symm
  · rw [piece_setCells hp, piece_setCells hp, h]

theorem setFound_congr {hits : List Hit} (h : u.piece p = v.piece p) :
    (u.setFound t hits).piece p = (v.setFound t hits).piece p := by
  by_cases hp : p = .found t
  · subst hp
    exact setFound_self.trans setFound_self.symm
  · rw [piece_setFound hp, piece_setFound hp, h]

theorem setNextTid_congr {n : ℤ} (h : u.piece p = v.piece p) :
    ({ u with nextTid := n } : Unsharded).piece p =
      ({ v with nextTid := n } : Unsharded).piece p := by
  by_cases hp : p = .nextTid
  · subst hp
    rfl
  · exact (piece_setNextTid hp).trans (h.trans (piece_setNextTid hp).symm)

/-- What an operation writes is decided by what it touches. -/
theorem act_congr (h : ∀ p ∈ a.touches, u.piece p = v.piece p) :
    ∀ p ∈ a.touches, (a.act u).piece p = (a.act v).piece p := by
  intro p hp
  have hsame := h p hp
  cases a with
  | enter t => exact setFound_congr hsame
  | init t =>
      have ht : u.threads t = v.threads t := h (.thread t) (by simp [Op.touches])
      have hn : u.nextTid = v.nextTid := h .nextTid (by simp [Op.touches])
      rw [Op.act, Op.act, ht]
      split
      · exact hsame
      · rw [Unsharded.init, Unsharded.init, hn]
        exact setThread_congr (setNextTid_congr hsame)
  | acquire t key =>
      have ht : u.threads t = v.threads t := h (.thread t) (by simp [Op.touches])
      have hk : u.clocks key = v.clocks key := h (.clock key) (by simp [Op.touches])
      rw [Op.act, Op.act, ht]
      cases v.threads t with
      | none => exact hsame
      | some th =>
          rw [Option.elim_some, Option.elim_some, Unsharded.acquire, Unsharded.acquire, hk]
          exact setThread_congr hsame
  | release t key =>
      have ht : u.threads t = v.threads t := h (.thread t) (by simp [Op.touches])
      have hk : u.clocks key = v.clocks key := h (.clock key) (by simp [Op.touches])
      rw [Op.act, Op.act, ht]
      cases v.threads t with
      | none => exact hsame
      | some th =>
          rw [Option.elim_some, Option.elim_some, Unsharded.release, Unsharded.release, hk]
          exact setThread_congr (setClock_congr hsame)
  | create t child =>
      have ht : u.threads t = v.threads t := h (.thread t) (by simp [Op.touches])
      have hn : u.nextTid = v.nextTid := h .nextTid (by simp [Op.touches])
      rw [Op.act, Op.act, ht]
      cases v.threads t with
      | none => exact hsame
      | some th =>
          rw [Option.elim_some, Option.elim_some, Unsharded.create, Unsharded.create, hn]
          exact setThread_congr (setThread_congr (setNextTid_congr hsame))
  | join t child =>
      have ht : u.threads t = v.threads t := h (.thread t) (by simp [Op.touches])
      have hc : u.threads child = v.threads child := h (.thread child) (by simp [Op.touches])
      rw [Op.act, Op.act, ht, hc]
      cases v.threads t with
      | none => exact hsame
      | some th =>
          cases v.threads child with
          | none => exact hsame
          | some c => exact setThread_congr hsame
  | drop t => exact setThread_congr hsame
  | access t word isWrite file line =>
      have ht : u.threads t = v.threads t := h (.thread t) (by simp [Op.touches])
      have hw : u.cells word = v.cells word := h (.cells word) (by simp [Op.touches])
      have hf : u.found t = v.found t := h (.found t) (by simp [Op.touches])
      rw [Op.act, Op.act, ht]
      cases v.threads t with
      | none => exact hsame
      | some th =>
          rw [Option.elim_some, Option.elim_some, Unsharded.access, Unsharded.access, hw, hf]
          exact setFound_congr (setCells_congr hsame)

/-- So is what it answers. -/
theorem answer_congr (h : ∀ p ∈ a.touches, u.piece p = v.piece p) : u.answer a = v.answer a := by
  cases a with
  | access t word isWrite file line =>
      have ht : u.threads t = v.threads t := h (.thread t) (by simp [Op.touches])
      have hw : u.cells word = v.cells word := h (.cells word) (by simp [Op.touches])
      rw [Unsharded.answer, Unsharded.answer, ht, hw]
  | _ => rfl

theorem writes_subset (h : p ∈ a.writes) : p ∈ a.touches := by
  cases a <;> simp only [Op.writes, Op.touches, List.mem_cons, List.not_mem_nil] at h ⊢ <;> tauto

theorem footprint_unsharded :
    Footprint Unsharded.piece Op.act Unsharded.answer Op.touches Op.writes where
  ext := ext_pieces
  subset := writes_subset
  frame _ h := piece_act h
  acts := act_congr
  answers := answer_congr

/-- The answers of independent operations go to different threads. -/
theorem answers_apart (h : Unrelated Op.touches Op.writes a b) :
    ∀ x ∈ u.answer a, ∀ y ∈ v.answer b, x.thread ≠ y.thread := by
  intro x hx y hy heq
  cases a with
  | access t word isWrite file line =>
      cases b with
      | access t' word' isWrite' file' line' =>
          obtain ⟨th, -, rfl⟩ := List.mem_map.mp hx
          obtain ⟨th', -, rfl⟩ := List.mem_map.mp hy
          exact h.1 (.found t) (by simp [Op.writes]) (by simp [Op.touches, show t = t' from heq])
      | _ => exact absurd hy List.not_mem_nil
  | _ => exact absurd hx List.not_mem_nil

theorem dependent_refl (a : Op) : Op.Dependent a a := by
  intro h
  cases a with
  | enter t => exact h.1 (.found t) (by simp [Op.writes]) (by simp [Op.touches])
  | access t word isWrite file line =>
      exact h.1 (.found t) (by simp [Op.writes]) (by simp [Op.touches])
  | _ => exact h.1 (.thread _) (List.mem_cons_self ..) (List.mem_cons_self ..)

theorem dependent_symm (a b : Op) (h : Op.Dependent a b) : Op.Dependent b a :=
  fun hun => h hun.symm

/-- Schedules of the operations that keep the order of dependent ones have the same outcome. -/
theorem same_of_order {l l' : List Op} (h : SameOrder Op.Dependent l l') :
    perform Op.act l u = perform Op.act l' u ∧
      ∀ t, (answers Op.act Unsharded.answer u l).filter (fun x => x.thread = t) =
        (answers Op.act Unsharded.answer u l').filter fun x => x.thread = t := by
  apply h.same dependent_refl dependent_symm
  intro a b hindep
  have hun : Unrelated Op.touches Op.writes a b := not_not.mp hindep
  exact footprint_unsharded.swappable hun fun _ _ => answers_apart hun

theorem act_of_idle (h : a.idle u = true) : a.act u = u := by
  cases a with
  | init t => exact if_pos h
  | _ => exact absurd h Bool.false_ne_true

theorem answer_of_idle (h : a.idle u = true) : u.answer a = [] := by
  cases a with
  | init t => rfl
  | _ => exact absurd h Bool.false_ne_true

end Footprint

/-- The operations of a run, without the idle ones. -/
def done (i : Init) (es : List Event) : List Op :=
  busy (fun u a => Op.idle u a) Op.act (.initial i) (asked i es)

/-- The engine comes to the same without the idle operations. -/
theorem done_spec {i : Init} {es : List Event} :
    perform Op.act (done i es) (.initial i) = unshardedRun i es ∧
      answers Op.act Unsharded.answer (.initial i) (done i es) =
        answers Op.act Unsharded.answer (.initial i) (asked i es) :=
  busy_spec (fun _ _ => act_of_idle) fun _ _ => answer_of_idle

/-! ## Runs of the runtime -/

/-- Two runs whose operations differ in the order of independent ones alone find the same
races: every thread gets the same verdicts in the same order, and the clocks, the records of
the words and the first race of each thread end up the same. -/
theorem detection_of_same_order {i : Init} {es es' : List Event} {s s' : Process}
    (hrun : processRun i es = some s) (hrun' : processRun i es' = some s')
    (hroom : RoomThroughout i es) (hroom' : RoomThroughout i es')
    (horder : SameOrder Op.Dependent (done i es) (done i es')) :
    (∀ t, (observed Process.step Process.answer (.initial i) es).filter (fun x => x.thread = t) =
      (observed Process.step Process.answer (.initial i) es').filter fun x => x.thread = t) ∧
    (∀ t, (s.handles t).thread = (s'.handles t).thread) ∧
    (∀ key, s.syncClock key = s'.syncClock key) ∧
    (∀ w, s.cellsAt w = s'.cellsAt w) ∧
    ∀ t, (s.threads t).hits = (s'.threads t).hits ∧ (s.threads t).hit = (s'.threads t).hit := by
  obtain ⟨hmerged, hseen⟩ := drives_unsharded.run hroom hrun (merged_initial i)
  obtain ⟨hmerged', hseen'⟩ := drives_unsharded.run hroom' hrun' (merged_initial i)
  obtain ⟨hstate, hanswers⟩ := same_of_order (u := .initial i) horder
  change Merged s (unshardedRun i es) at hmerged
  change Merged s' (unshardedRun i es') at hmerged'
  rw [done_spec.1, done_spec.1] at hstate
  rw [← hstate] at hmerged'
  refine ⟨fun t => ?_, fun t => ?_, fun key => ?_, fun w => ?_, fun t => ⟨?_, ?_⟩⟩
  · rw [hseen, hseen']
    have hthread := hanswers t
    rwa [done_spec.2, done_spec.2] at hthread
  · rw [← hmerged.threads, hmerged'.threads]
  · rw [← hmerged.clocks, hmerged'.clocks]
  · rw [← hmerged.cells, hmerged'.cells]
  · rw [hmerged.hits, hmerged'.hits]
  · rw [hmerged.hit, hmerged'.hit]

/-- Two threads write to words of their own, and the second one goes on to the word of the
first one. -/
def crossing : List Event × List Event :=
  let mine := wholeCall 0 (.write 0x1000 4 none 3)
  let yours := wholeCall 1 (.write 0x2000 4 none 7)
  let race := wholeCall 1 (.read 0x1000 4 none 8)
  (wholeCreate 0 1 1 ++ mine ++ yours ++ race, wholeCreate 0 1 1 ++ yours ++ mine ++ race)

theorem detection_of_same_order_crossing :
    ∃ s s', processRun .ok crossing.1 = some s ∧ processRun .ok crossing.2 = some s' ∧
      (s.threads 1).hits = 1 ∧ (s.threads 1).hit = (s'.threads 1).hit := by
  have hsome : (processRun .ok crossing.1).map (fun s => (s.threads 1).hits) = some 1 := by
    decide +kernel
  have hsome' : (processRun .ok crossing.2).isSome = true := by decide +kernel
  have hroom : RoomThroughout .ok crossing.1 := by decide +kernel
  have hroom' : RoomThroughout .ok crossing.2 := by decide +kernel
  have horder : SameOrder Op.Dependent (done .ok crossing.1) (done .ok crossing.2) := by
    decide +kernel
  obtain ⟨s, hs, hhits⟩ := Option.map_eq_some_iff.mp hsome
  obtain ⟨s', hs'⟩ := Option.isSome_iff_exists.mp hsome'
  exact ⟨s, s', hs, hs', hhits, (detection_of_same_order hs hs' hroom hroom' horder).2.2.2.2 1 |>.2⟩

end Redzone.Runtime
