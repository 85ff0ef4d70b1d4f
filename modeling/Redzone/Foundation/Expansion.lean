/-
  Foundation/Expansion.lean --- code in which every instruction is replaced by several.

  Going over a list of instructions makes one event for each of them, and a program goes
  from one list to the next.  A transformation that puts a segment of code in the place of
  each instruction is said to expand it where the segment, run alone, makes what the
  transformation says of an event, and nothing else.  Then whole lists expand to their
  segments one behind the other, and whole walks to walks, in both directions.

  What is said of an event may depend on state that only the new code has; `A` is that
  state, as far as it is seen from outside.
-/
import Mathlib.Data.List.Basic

set_option autoImplicit false

namespace Redzone.Foundation

variable {X Y E F V W σ τ A : Type}

/-! ## Lists of instructions -/

/-- Going over a list, with one event for each instruction. -/
inductive Performs (fire : X → σ → E → σ → Prop) : List X → σ → List E → σ → Prop
  | nil (s : σ) : Performs fire [] s [] s
  | cons {x : X} {xs : List X} {s s' s'' : σ} {e : E} {es : List E} (head : fire x s e s')
      (tail : Performs fire xs s' es s'') : Performs fire (x :: xs) s (e :: es) s''

/-- What is said of the events of a list, place by place from `k` on. -/
inductive Expanded (tells : ℕ → X → A → E → List F → A → Prop) :
    ℕ → List X → A → List E → List F → A → Prop
  | nil (k : ℕ) (a : A) : Expanded tells k [] a [] [] a
  | cons {k : ℕ} {x : X} {xs : List X} {a a' a'' : A} {e : E} {es : List E} {out outs : List F}
      (head : tells k x a e out a') (tail : Expanded tells (k + 1) xs a' es outs a'') :
      Expanded tells k (x :: xs) a (e :: es) (out ++ outs) a''

section Lists

variable {fire : X → σ → E → σ → Prop} {x : X} {xs ys : List X} {s s' : σ} {es : List E}

theorem performs_nil_iff : Performs fire [] s es s' ↔ es = [] ∧ s' = s := by
  constructor
  · intro h
    cases h
    exact ⟨rfl, rfl⟩
  · rintro ⟨rfl, rfl⟩
    exact .nil s'

theorem performs_cons_iff : Performs fire (x :: xs) s es s' ↔
    ∃ e m rest, es = e :: rest ∧ fire x s e m ∧ Performs fire xs m rest s' := by
  constructor
  · intro h
    cases h with
    | cons head tail => exact ⟨_, _, _, rfl, head, tail⟩
  · rintro ⟨e, m, rest, rfl, head, tail⟩
    exact .cons head tail

theorem performs_singleton_iff : Performs fire [x] s es s' ↔ ∃ e, es = [e] ∧ fire x s e s' := by
  rw [performs_cons_iff]
  constructor
  · rintro ⟨e, m, rest, rfl, head, tail⟩
    obtain ⟨rfl, rfl⟩ := performs_nil_iff.mp tail
    exact ⟨e, rfl, head⟩
  · rintro ⟨e, rfl, head⟩
    exact ⟨e, s', [], rfl, head, .nil s'⟩

/-- Going over two lists, one behind the other. -/
theorem performs_append_iff : Performs fire (xs ++ ys) s es s' ↔
    ∃ l m r, es = l ++ r ∧ Performs fire xs s l m ∧ Performs fire ys m r s' := by
  induction xs generalizing s es with
  | nil =>
      constructor
      · exact fun h => ⟨[], s, es, rfl, .nil s, h⟩
      · rintro ⟨l, m, r, rfl, hl, hr⟩
        obtain ⟨rfl, rfl⟩ := performs_nil_iff.mp hl
        exact hr
  | cons x xs ih =>
      rw [List.cons_append, performs_cons_iff]
      constructor
      · rintro ⟨e, n, rest, rfl, head, tail⟩
        obtain ⟨l, m, r, rfl, hl, hr⟩ := ih.mp tail
        exact ⟨e :: l, m, r, rfl, .cons head hl, hr⟩
      · rintro ⟨l, m, r, rfl, hl, hr⟩
        obtain ⟨e, n, rest, rfl, head, tail⟩ := performs_cons_iff.mp hl
        exact ⟨e, n, rest ++ r, rfl, head, ih.mpr ⟨rest, m, r, rfl, tail, hr⟩⟩

/-- Instructions that are mapped to ones which run alike. -/
theorem performs_map_eq {fire' : Y → σ → E → σ → Prop} {f : X → Y}
    (h : ∀ x, fire' (f x) = fire x) (xs : List X) :
    Performs fire' (xs.map f) = Performs fire xs := by
  funext s es s'
  induction xs generalizing s es with
  | nil =>
      rw [List.map_nil]
      exact propext (performs_nil_iff.trans performs_nil_iff.symm)
  | cons x xs ih =>
      refine propext ?_
      rw [List.map_cons, performs_cons_iff, performs_cons_iff, h x]
      simp only [ih]

/-- Segments that make of each event what `f` says, and nothing else. -/
theorem performs_flatMap_iff {fire' : Y → σ → F → σ → Prop} {seg : X → List Y} {f : E → List F}
    {out : List F} (h : ∀ x s out s', Performs fire' (seg x) s out s' ↔
      ∃ e, fire x s e s' ∧ out = f e) :
    Performs fire' (xs.flatMap seg) s out s' ↔
      ∃ es, Performs fire xs s es s' ∧ out = es.flatMap f := by
  induction xs generalizing s out with
  | nil =>
      constructor
      · intro hrun
        obtain ⟨rfl, rfl⟩ := performs_nil_iff.mp hrun
        exact ⟨[], .nil _, rfl⟩
      · rintro ⟨es, hrun, rfl⟩
        obtain ⟨rfl, rfl⟩ := performs_nil_iff.mp hrun
        exact .nil _
  | cons x xs ih =>
      rw [List.flatMap_cons, performs_append_iff]
      constructor
      · rintro ⟨l, m, r, rfl, hl, hr⟩
        obtain ⟨e, hfire, rfl⟩ := (h x _ _ _).mp hl
        obtain ⟨es, hrun, rfl⟩ := ih.mp hr
        exact ⟨e :: es, .cons hfire hrun, rfl⟩
      · rintro ⟨es, hrun, rfl⟩
        obtain ⟨e, m, rest, rfl, hfire, htail⟩ := performs_cons_iff.mp hrun
        exact ⟨f e, m, rest.flatMap f, rfl, (h x _ _ _).mpr ⟨e, hfire, rfl⟩,
          ih.mpr ⟨rest, htail, rfl⟩⟩

end Lists

/-- Each instruction that meets `P` may be replaced by its segment: what is said of its event
is all that the segment does. -/
structure Expands (P : X → Prop) (fire : X → σ → E → σ → Prop) (fire' : Y → τ → F → τ → Prop)
    (seg : ℕ → X → List Y) (tells : ℕ → X → A → E → List F → A → Prop)
    (R : σ → A → τ → Prop) : Prop where
  sound : ∀ {k x s a t out t'}, P x → R s a t → Performs fire' (seg k x) t out t' →
    ∃ e s' a', fire x s e s' ∧ tells k x a e out a' ∧ R s' a' t'
  complete : ∀ {k x s a t e s' out a'}, P x → R s a t → fire x s e s' → tells k x a e out a' →
    ∃ t', Performs fire' (seg k x) t out t' ∧ R s' a' t'

namespace Expands

variable {P : X → Prop} {fire : X → σ → E → σ → Prop} {fire' : Y → τ → F → τ → Prop}
  {seg : ℕ → X → List Y} {tells : ℕ → X → A → E → List F → A → Prop} {R : σ → A → τ → Prop}
  {xs : List X} {k : ℕ} {s s' : σ} {a a' : A} {t t' : τ} {es : List E} {outs : List F}

theorem mapIdx_from (seg : ℕ → X → List Y) (x : X) (xs : List X) (k : ℕ) :
    ((x :: xs).mapIdx fun i => seg (k + i)).flatten =
      seg k x ++ (xs.mapIdx fun i => seg (k + 1 + i)).flatten := by
  rw [List.mapIdx_cons, List.flatten_cons]
  exact congrArg (fun f => seg k x ++ (xs.mapIdx f).flatten)
    (funext fun i => congrArg seg (by omega))

/-- The segments of a list do nothing but what is said of its events. -/
theorem list_sound (h : Expands P fire fire' seg tells R) (hxs : ∀ x ∈ xs, P x) (hR : R s a t)
    (hrun : Performs fire' (xs.mapIdx fun i => seg (k + i)).flatten t outs t') :
    ∃ es s' a', Performs fire xs s es s' ∧ Expanded tells k xs a es outs a' ∧ R s' a' t' := by
  induction xs generalizing k s a t outs with
  | nil =>
      obtain ⟨rfl, rfl⟩ := performs_nil_iff.mp hrun
      exact ⟨[], s, a, .nil s, .nil k a, hR⟩
  | cons x xs ih =>
      rw [mapIdx_from] at hrun
      obtain ⟨out, m, rest, rfl, hhead, htail⟩ := performs_append_iff.mp hrun
      obtain ⟨e, s₁, a₁, hfire, htells, hR₁⟩ := h.sound (hxs x List.mem_cons_self) hR hhead
      obtain ⟨es, s', a', hperf, hexp, hR'⟩ :=
        ih (fun y hy => hxs y (List.mem_cons_of_mem x hy)) hR₁ htail
      exact ⟨e :: es, s', a', .cons hfire hperf, .cons htells hexp, hR'⟩

/-- The segments of a list do all that is said of its events. -/
theorem list_complete (h : Expands P fire fire' seg tells R) (hxs : ∀ x ∈ xs, P x) (hR : R s a t)
    (hperf : Performs fire xs s es s') (hexp : Expanded tells k xs a es outs a') :
    ∃ t', Performs fire' (xs.mapIdx fun i => seg (k + i)).flatten t outs t' ∧ R s' a' t' := by
  induction hperf generalizing k a t outs with
  | nil s =>
      cases hexp
      exact ⟨t, .nil t, hR⟩
  | @cons x xs s s₁ s' e es hfire htail ih =>
      cases hexp with
      | cons htells hexp =>
        obtain ⟨m, hhead, hR₁⟩ := h.complete (hxs x List.mem_cons_self) hR hfire htells
        obtain ⟨t', hrest, hR'⟩ := ih (fun y hy => hxs y (List.mem_cons_of_mem x hy)) hR₁ hexp
        rw [mapIdx_from]
        exact ⟨t', performs_append_iff.mpr ⟨_, m, _, rfl, hhead, hrest⟩, hR'⟩

end Expands

/-! ## Walks -/

/-- A program that goes from place to place, and what it does at each. -/
inductive Walk (visit : ℕ → σ → V → σ → Prop) (succ : V → ℕ → Prop) : ℕ → σ → List V → Prop
  | last {b : ℕ} {s s' : σ} {v : V} (here : visit b s v s') : Walk visit succ b s [v]
  | more {b b' : ℕ} {s s' : σ} {v : V} {vs : List V} (here : visit b s v s') (next : succ v b')
      (rest : Walk visit succ b' s' vs) : Walk visit succ b s (v :: vs)

/-- A program whose visits are those of another one, mapped by `g`. -/
theorem walk_map_iff {visit : ℕ → σ → V → σ → Prop} {visit' : ℕ → σ → W → σ → Prop}
    {succ : V → ℕ → Prop} {succ' : W → ℕ → Prop} {g : V → W} {b : ℕ} {s : σ} {ws : List W}
    (hvisit : ∀ b s w s', visit' b s w s' ↔ ∃ v, visit b s v s' ∧ w = g v)
    (hsucc : ∀ v b, succ' (g v) b ↔ succ v b) :
    Walk visit' succ' b s ws ↔ ∃ vs, Walk visit succ b s vs ∧ ws = vs.map g := by
  constructor
  · intro h
    induction h with
    | last here =>
        obtain ⟨v, hv, rfl⟩ := (hvisit _ _ _ _).mp here
        exact ⟨[v], .last hv, rfl⟩
    | more here next _ ih =>
        obtain ⟨v, hv, rfl⟩ := (hvisit _ _ _ _).mp here
        obtain ⟨vs, hrest, rfl⟩ := ih
        exact ⟨v :: vs, .more hv ((hsucc v _).mp next) hrest, rfl⟩
  · rintro ⟨vs, h, rfl⟩
    induction h with
    | last here => exact .last ((hvisit _ _ _ _).mpr ⟨_, here, rfl⟩)
    | more here next _ ih =>
        exact .more ((hvisit _ _ _ _).mpr ⟨_, here, rfl⟩) ((hsucc _ _).mpr next) ih

/-- What is said of the visits of a walk, one after the other. -/
inductive Threaded (tells : A → V → W → A → Prop) : A → List V → List W → Prop
  | nil (a : A) : Threaded tells a [] []
  | cons {a a' : A} {v : V} {vs : List V} {w : W} {ws : List W} (head : tells a v w a')
      (tail : Threaded tells a' vs ws) : Threaded tells a (v :: vs) (w :: ws)

/-- Every visit may be replaced, by one from which the walk goes on to the same places. -/
structure Revisits (visit : ℕ → σ → V → σ → Prop) (visit' : ℕ → τ → W → τ → Prop)
    (succ : V → ℕ → Prop) (succ' : W → ℕ → Prop) (tells : A → V → W → A → Prop)
    (R : σ → A → τ → Prop) : Prop where
  sound : ∀ {b s a t w t'}, R s a t → visit' b t w t' →
    ∃ v s' a', visit b s v s' ∧ tells a v w a' ∧ R s' a' t'
  complete : ∀ {b s a t v s' w a'}, R s a t → visit b s v s' → tells a v w a' →
    ∃ t', visit' b t w t' ∧ R s' a' t'
  next : ∀ {a v w a' b}, tells a v w a' → (succ' w b ↔ succ v b)

namespace Revisits

variable {visit : ℕ → σ → V → σ → Prop} {visit' : ℕ → τ → W → τ → Prop} {succ : V → ℕ → Prop}
  {succ' : W → ℕ → Prop} {tells : A → V → W → A → Prop} {R : σ → A → τ → Prop}
  {b : ℕ} {s : σ} {a : A} {t : τ} {ws : List W} {vs : List V}

theorem walk_sound (h : Revisits visit visit' succ succ' tells R) (hR : R s a t)
    (hwalk : Walk visit' succ' b t ws) :
    ∃ vs, Walk visit succ b s vs ∧ Threaded tells a vs ws := by
  induction hwalk generalizing s a with
  | last here =>
      obtain ⟨v, s', a', hvisit, htells, -⟩ := h.sound hR here
      exact ⟨[v], .last hvisit, .cons htells (.nil a')⟩
  | more here next _ ih =>
      obtain ⟨v, s', a', hvisit, htells, hR'⟩ := h.sound hR here
      obtain ⟨vs, hrest, hthread⟩ := ih hR'
      exact ⟨v :: vs, .more hvisit ((h.next htells).mp next) hrest, .cons htells hthread⟩

theorem walk_complete (h : Revisits visit visit' succ succ' tells R) (hR : R s a t)
    (hwalk : Walk visit succ b s vs) (hthread : Threaded tells a vs ws) :
    Walk visit' succ' b t ws := by
  induction hwalk generalizing a t ws with
  | last here =>
      cases hthread with
      | cons htells htail =>
        cases htail
        obtain ⟨t', hvisit, -⟩ := h.complete hR here htells
        exact .last hvisit
  | more here next _ ih =>
      cases hthread with
      | cons htells htail =>
        obtain ⟨t', hvisit, hR'⟩ := h.complete hR here htells
        exact .more hvisit ((h.next htells).mpr next) (ih hR' htail)

/-- The walks of the new program are those that are said of the walks of the old one. -/
theorem walk_iff (h : Revisits visit visit' succ succ' tells R) (hR : R s a t) :
    Walk visit' succ' b t ws ↔ ∃ vs, Walk visit succ b s vs ∧ Threaded tells a vs ws :=
  ⟨h.walk_sound hR, fun ⟨_, hwalk, hthread⟩ => h.walk_complete hR hwalk hthread⟩

end Revisits

end Redzone.Foundation
