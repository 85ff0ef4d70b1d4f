/-
  Foundation/Causality.lean --- happens-before over a finite list of events, and
  the causal pasts that compute it.

  An event is performed by one actor, imports what has been published at some
  objects and publishes at others (`Signature`).  Happens-before is the transitive
  closure of two edges between positions of the list: program order, and "published
  at an object, later imported from it".  Nothing else is assumed about actors or
  objects, so a lock, the start of a child and the end of a child are all objects.

  `knowledge` folds the events once and keeps, for every actor and every object,
  the set of positions known there.  `mem_incoming_iff` says this set is exactly
  the happens-before past; it also makes happens-before decidable on a concrete
  list of events.
-/
import Mathlib.Data.Finset.Union
import Mathlib.Data.List.Induction
import Mathlib.Logic.Relation

set_option autoImplicit false

namespace Redzone.Foundation

/-- How an event takes part in the causal order. -/
structure Signature (ε T O : Type) where
  /-- Who performs the event. -/
  actor : ε → T
  /-- The objects whose published past the event imports. -/
  acquires : ε → Finset O
  /-- The objects at which the event publishes its own past. -/
  releases : ε → Finset O

variable {ε T O : Type} (S : Signature ε T O)

/-- One causal edge between positions of `es`: program order of one actor, or a
publication at an object followed by an import from it. -/
def Edge (es : List ε) (i j : ℕ) : Prop :=
  i < j ∧ ∃ e f, es[i]? = some e ∧ es[j]? = some f ∧
    (S.actor e = S.actor f ∨ ∃ o, o ∈ S.releases e ∧ o ∈ S.acquires f)

/-- Position `i` happens before position `j`. -/
def HappensBefore (es : List ε) : ℕ → ℕ → Prop :=
  Relation.TransGen (Edge S es)

/-- `i` is `k` itself or happens before it. -/
def InPast (es : List ε) (i k : ℕ) : Prop :=
  i = k ∨ HappensBefore S es i k

section Order

variable {S} {es fs : List ε} {e : ε} {i j k : ℕ}

theorem HappensBefore.lt (h : HappensBefore S es i j) : i < j := by
  induction h with
  | single h => exact h.1
  | tail _ h ih => exact lt_trans ih h.1

theorem HappensBefore.trans (h : HappensBefore S es i j) (h' : HappensBefore S es j k) :
    HappensBefore S es i k := Relation.TransGen.trans h h'

theorem Edge.lt_length (h : Edge S es i j) : j < es.length := by
  obtain ⟨-, e, f, -, hf, -⟩ := h
  exact (List.getElem?_eq_some_iff.mp hf).1

theorem HappensBefore.lt_length (h : HappensBefore S es i j) : j < es.length := by
  cases h with
  | single h => exact h.lt_length
  | tail _ h => exact h.lt_length

/-- Program order is part of happens-before. -/
theorem HappensBefore.of_actor {e f : ε} (hij : i < j) (he : es[i]? = some e)
    (hf : es[j]? = some f) (h : S.actor e = S.actor f) : HappensBefore S es i j :=
  .single ⟨hij, e, f, he, hf, Or.inl h⟩

/-- A publication happens before a later import from the same object. -/
theorem HappensBefore.of_object {e f : ε} (hij : i < j) (he : es[i]? = some e)
    (hf : es[j]? = some f) {o : O} (hrel : o ∈ S.releases e) (hacq : o ∈ S.acquires f) :
    HappensBefore S es i j :=
  .single ⟨hij, e, f, he, hf, Or.inr ⟨o, hrel, hacq⟩⟩

theorem InPast.trans_edge (h : InPast S es i k) (hkj : Edge S es k j) :
    HappensBefore S es i j := by
  obtain rfl | h := h
  · exact .single hkj
  · exact h.tail hkj

/-- The last edge of a happens-before path. -/
theorem happensBefore_iff_last :
    HappensBefore S es i j ↔ ∃ k, Edge S es k j ∧ InPast S es i k := by
  constructor
  · intro h
    cases h with
    | single h => exact ⟨i, h, Or.inl rfl⟩
    | tail h hlast => exact ⟨_, hlast, Or.inr h⟩
  · rintro ⟨k, hkj, hik⟩
    exact hik.trans_edge hkj

/-- Edges into a position of a prefix do not see the events after the prefix. -/
theorem edge_append_left (hj : j < es.length) :
    Edge S (es ++ fs) i j ↔ Edge S es i j := by
  unfold Edge
  refine and_congr_right fun hij => ?_
  rw [List.getElem?_append_left hj, List.getElem?_append_left (hij.trans hj)]

theorem happensBefore_append_left (hj : j < es.length) :
    HappensBefore S (es ++ fs) i j ↔ HappensBefore S es i j := by
  constructor
  · intro h
    induction h with
    | single h => exact .single ((edge_append_left hj).mp h)
    | tail _ h ih => exact (ih (h.1.trans hj)).tail ((edge_append_left hj).mp h)
  · intro h
    have hle : Edge S es ≤ Edge S (es ++ fs) :=
      fun a b hab => (edge_append_left hab.lt_length).mpr hab
    exact Relation.TransGen.mono hle i j h

theorem inPast_append_left (hk : k < es.length) :
    InPast S (es ++ fs) i k ↔ InPast S es i k := by
  unfold InPast
  rw [happensBefore_append_left hk]

/-- The edges into the last event of a list. -/
theorem edge_snoc :
    Edge S (es ++ [e]) k es.length ↔
      ∃ f, es[k]? = some f ∧
        (S.actor f = S.actor e ∨ ∃ o, o ∈ S.releases f ∧ o ∈ S.acquires e) := by
  have hlast : (es ++ [e])[es.length]? = some e := by simp
  constructor
  · rintro ⟨hk, f, g, hf, hg, h⟩
    rw [List.getElem?_append_left hk] at hf
    obtain rfl : e = g := by simpa [hlast] using hg
    exact ⟨f, hf, h⟩
  · rintro ⟨f, hf, h⟩
    have hk : k < es.length := (List.getElem?_eq_some_iff.mp hf).1
    refine ⟨hk, f, e, ?_, hlast, h⟩
    rw [List.getElem?_append_left hk, hf]

end Order

/-! ## Causal pasts -/

/-- The positions known to each actor and published at each object. -/
structure Knowledge (T O : Type) where
  /-- What an actor knows: its own events and everything before them. -/
  thread : T → Finset ℕ
  /-- What has been published at an object. -/
  object : O → Finset ℕ

/-- What the actor of `e` knows when it performs `e`, the event itself left out. -/
def Knowledge.incoming (K : Knowledge T O) (e : ε) : Finset ℕ :=
  K.thread (S.actor e) ∪ (S.acquires e).biUnion K.object

/-- The meaning of the two tables: an actor knows its own events and their past,
an object holds the pasts of the events that published at it. -/
structure KnowledgeExact (es : List ε) (K : Knowledge T O) : Prop where
  thread : ∀ t i, i ∈ K.thread t ↔
    ∃ k f, es[k]? = some f ∧ S.actor f = t ∧ InPast S es i k
  object : ∀ o i, i ∈ K.object o ↔
    ∃ k f, es[k]? = some f ∧ o ∈ S.releases f ∧ InPast S es i k

section Incoming

variable {S} {es : List ε} {K : Knowledge T O} {e : ε} {i : ℕ}

theorem mem_incoming :
    i ∈ K.incoming S e ↔ i ∈ K.thread (S.actor e) ∨ ∃ o ∈ S.acquires e, i ∈ K.object o := by
  simp [Knowledge.incoming]

/-- Incoming knowledge is the past of the event about to be performed. -/
theorem KnowledgeExact.mem_incoming (h : KnowledgeExact S es K) :
    i ∈ K.incoming S e ↔ HappensBefore S (es ++ [e]) i es.length := by
  rw [happensBefore_iff_last]
  simp only [edge_snoc]
  constructor
  · intro hi
    obtain hi | ⟨o, ho, hi⟩ := Foundation.mem_incoming.mp hi
    · obtain ⟨k, f, hf, hactor, hpast⟩ := (h.thread _ i).mp hi
      have hk := (List.getElem?_eq_some_iff.mp hf).1
      exact ⟨k, ⟨f, hf, Or.inl hactor⟩, (inPast_append_left hk).mpr hpast⟩
    · obtain ⟨k, f, hf, hrel, hpast⟩ := (h.object o i).mp hi
      have hk := (List.getElem?_eq_some_iff.mp hf).1
      exact ⟨k, ⟨f, hf, Or.inr ⟨o, hrel, ho⟩⟩, (inPast_append_left hk).mpr hpast⟩
  · rintro ⟨k, ⟨f, hf, hedge⟩, hpast⟩
    have hk := (List.getElem?_eq_some_iff.mp hf).1
    have hpast' := (inPast_append_left hk).mp hpast
    rw [Foundation.mem_incoming]
    obtain hactor | ⟨o, hrel, hacq⟩ := hedge
    · exact Or.inl ((h.thread _ i).mpr ⟨k, f, hf, hactor, hpast'⟩)
    · exact Or.inr ⟨o, hacq, (h.object o i).mpr ⟨k, f, hf, hrel, hpast'⟩⟩

/-- What the acting thread knows afterwards is the past of the new position. -/
theorem KnowledgeExact.mem_insert (h : KnowledgeExact S es K) :
    i ∈ insert es.length (K.incoming S e) ↔ InPast S (es ++ [e]) i es.length := by
  rw [Finset.mem_insert, h.mem_incoming, InPast]

/-- Only positions of the list are ever known. -/
theorem KnowledgeExact.lt_of_mem_thread (h : KnowledgeExact S es K) {t : T}
    (hi : i ∈ K.thread t) : i < es.length := by
  obtain ⟨k, f, hf, -, hpast⟩ := (h.thread t i).mp hi
  have hk := (List.getElem?_eq_some_iff.mp hf).1
  obtain rfl | hpast := hpast
  · exact hk
  · exact hpast.lt.trans hk

theorem KnowledgeExact.lt_of_mem_object (h : KnowledgeExact S es K) {o : O}
    (hi : i ∈ K.object o) : i < es.length := by
  obtain ⟨k, f, hf, -, hpast⟩ := (h.object o i).mp hi
  have hk := (List.getElem?_eq_some_iff.mp hf).1
  obtain rfl | hpast := hpast
  · exact hk
  · exact hpast.lt.trans hk

/-- A position of `es ++ [e]` whose event satisfies `p` is an old one, or the new
one if `e` does. -/
theorem exists_snoc_iff_of (p : ε → Prop) :
    (∃ k f, (es ++ [e])[k]? = some f ∧ p f ∧ InPast S (es ++ [e]) i k) ↔
      (∃ k f, es[k]? = some f ∧ p f ∧ InPast S es i k) ∨
        (p e ∧ InPast S (es ++ [e]) i es.length) := by
  constructor
  · rintro ⟨k, f, hf, hp, hpast⟩
    by_cases hk : k < es.length
    · rw [List.getElem?_append_left hk] at hf
      exact Or.inl ⟨k, f, hf, hp, (inPast_append_left hk).mp hpast⟩
    · obtain rfl : k = es.length := by
        have := (List.getElem?_eq_some_iff.mp hf).1
        simp only [List.length_append, List.length_singleton] at this
        omega
      obtain rfl : e = f := by simpa using hf
      exact Or.inr ⟨hp, hpast⟩
  · rintro (⟨k, f, hf, hp, hpast⟩ | ⟨hp, hpast⟩)
    · have hk := (List.getElem?_eq_some_iff.mp hf).1
      refine ⟨k, f, ?_, hp, (inPast_append_left hk).mpr hpast⟩
      rw [List.getElem?_append_left hk, hf]
    · exact ⟨es.length, e, by simp, hp, hpast⟩

end Incoming

variable [DecidableEq T] [DecidableEq O]

/-- The knowledge after event `e` at position `n`. -/
def Knowledge.advance (K : Knowledge T O) (n : ℕ) (e : ε) : Knowledge T O where
  thread := Function.update K.thread (S.actor e) (insert n (K.incoming S e))
  object := fun o =>
    if o ∈ S.releases e then K.object o ∪ insert n (K.incoming S e) else K.object o

/-- The knowledge after all of `es`. -/
def knowledge (es : List ε) : Knowledge T O :=
  es.zipIdx.foldl (fun K p => K.advance S p.2 p.1) ⟨fun _ => ∅, fun _ => ∅⟩

@[simp] theorem knowledge_nil_thread (t : T) : (knowledge S []).thread t = ∅ := rfl
@[simp] theorem knowledge_nil_object (o : O) : (knowledge S []).object o = ∅ := rfl

theorem knowledge_snoc (es : List ε) (e : ε) :
    knowledge S (es ++ [e]) = (knowledge S es).advance S es.length e := by
  simp [knowledge, List.zipIdx_append]

section Advance

variable {S} {K : Knowledge T O} {n : ℕ} {es : List ε} {e : ε}

@[simp] theorem advance_thread_self :
    (K.advance S n e).thread (S.actor e) = insert n (K.incoming S e) :=
  Function.update_self ..

theorem advance_thread_of_ne {t : T} (h : t ≠ S.actor e) :
    (K.advance S n e).thread t = K.thread t :=
  Function.update_of_ne h ..

theorem advance_object_of_mem {o : O} (h : o ∈ S.releases e) :
    (K.advance S n e).object o = K.object o ∪ insert n (K.incoming S e) :=
  if_pos h

theorem advance_object_of_notMem {o : O} (h : o ∉ S.releases e) :
    (K.advance S n e).object o = K.object o :=
  if_neg h

theorem KnowledgeExact.advance (h : KnowledgeExact S es K) :
    KnowledgeExact S (es ++ [e]) (K.advance S es.length e) := by
  constructor
  · intro t i
    rw [exists_snoc_iff_of (fun f => S.actor f = t), ← h.mem_insert]
    by_cases ht : t = S.actor e
    · subst ht
      rw [advance_thread_self, ← h.thread]
      constructor
      · exact fun hi => Or.inr ⟨rfl, hi⟩
      · rintro (hi | ⟨-, hi⟩)
        · exact Finset.mem_insert_of_mem (Foundation.mem_incoming.mpr (Or.inl hi))
        · exact hi
    · rw [advance_thread_of_ne ht, h.thread]
      simp [Ne.symm ht]
  · intro o i
    rw [exists_snoc_iff_of (fun f => o ∈ S.releases f), ← h.mem_insert, ← h.object]
    by_cases ho : o ∈ S.releases e
    · rw [advance_object_of_mem ho, Finset.mem_union]
      simp [ho]
    · rw [advance_object_of_notMem ho]
      simp [ho]

end Advance

theorem knowledge_exact (es : List ε) : KnowledgeExact S es (knowledge S es) := by
  induction es using List.reverseRecOn with
  | nil => exact ⟨by simp, by simp⟩
  | append_singleton es e ih =>
    rw [knowledge_snoc]
    exact ih.advance

/-! ## Actors that are born

An actor may come into being by an event of another actor, which publishes at an object
that stands for its birth; each of its own events imports from that object. -/

section Birth

variable (born : T → O)

/-- What actor `t` knows after `es`: its own events and their pasts, and, before its
first event, what has been published at its birth. -/
def pastOf (es : List ε) (t : T) : Finset ℕ :=
  (knowledge S es).thread t ∪ (knowledge S es).object (born t)

variable {S born} {es : List ε} {e : ε} {t : T} {o : O}

theorem lt_of_mem_pastOf {i : ℕ} (h : i ∈ pastOf S born es t) : i < es.length := by
  obtain h | h := Finset.mem_union.mp h
  · exact (knowledge_exact S es).lt_of_mem_thread h
  · exact (knowledge_exact S es).lt_of_mem_object h

theorem lt_of_mem_incoming {i : ℕ} (h : i ∈ (knowledge S es).incoming S e) : i < es.length := by
  obtain h | ⟨o, -, h⟩ := mem_incoming.mp h
  · exact (knowledge_exact S es).lt_of_mem_thread h
  · exact (knowledge_exact S es).lt_of_mem_object h

/-- An event imports the past of its actor, and what the other objects hold. -/
theorem incoming_eq_pastOf (born : T → O) {A : Finset O}
    (h : S.acquires e = insert (born (S.actor e)) A) :
    (knowledge S es).incoming S e =
      pastOf S born es (S.actor e) ∪ A.biUnion (knowledge S es).object := by
  rw [Knowledge.incoming, h, Finset.biUnion_insert, pastOf, Finset.union_assoc]

/-- The actor knows the new event and what it imported. -/
theorem pastOf_snoc_actor (born : T → O) (hacq : born (S.actor e) ∈ S.acquires e)
    (hrel : born (S.actor e) ∉ S.releases e) :
    pastOf S born (es ++ [e]) (S.actor e) =
      insert es.length ((knowledge S es).incoming S e) := by
  have hsub : (knowledge S es).object (born (S.actor e)) ⊆ (knowledge S es).incoming S e :=
    fun i hi => mem_incoming.mpr (Or.inr ⟨_, hacq, hi⟩)
  rw [pastOf, knowledge_snoc, advance_thread_self, advance_object_of_notMem hrel]
  exact Finset.union_eq_left.mpr (hsub.trans (Finset.subset_insert _ _))

/-- Another actor learns nothing, unless the event publishes at its birth. -/
theorem pastOf_snoc_other (hactor : t ≠ S.actor e) (hrel : born t ∉ S.releases e) :
    pastOf S born (es ++ [e]) t = pastOf S born es t := by
  rw [pastOf, knowledge_snoc, advance_thread_of_ne hactor, advance_object_of_notMem hrel, pastOf]

/-- An actor starts from what was known at its birth. -/
theorem pastOf_snoc_born (hactor : t ≠ S.actor e) (hrel : born t ∈ S.releases e) :
    pastOf S born (es ++ [e]) t =
      pastOf S born es t ∪ insert es.length ((knowledge S es).incoming S e) := by
  rw [pastOf, knowledge_snoc, advance_thread_of_ne hactor, advance_object_of_mem hrel, pastOf,
    Finset.union_assoc]

theorem object_snoc_of_mem (h : o ∈ S.releases e) :
    (knowledge S (es ++ [e])).object o =
      (knowledge S es).object o ∪ insert es.length ((knowledge S es).incoming S e) := by
  rw [knowledge_snoc, advance_object_of_mem h]

theorem object_snoc_of_notMem (h : o ∉ S.releases e) :
    (knowledge S (es ++ [e])).object o = (knowledge S es).object o := by
  rw [knowledge_snoc, advance_object_of_notMem h]

/-- An object at which an actor and its creator publish all they do holds what the actor
knows. -/
theorem object_eq_pastOf
    (h : ∀ f, o ∈ S.releases f ↔ S.actor f = t ∨ born t ∈ S.releases f) (es : List ε) :
    (knowledge S es).object o = pastOf S born es t := by
  have hexact := knowledge_exact S es
  ext i
  rw [pastOf, Finset.mem_union, hexact.object, hexact.object, hexact.thread]
  constructor
  · rintro ⟨k, f, hf, hrel, hpast⟩
    obtain hactor | hborn := (h f).mp hrel
    · exact Or.inl ⟨k, f, hf, hactor, hpast⟩
    · exact Or.inr ⟨k, f, hf, hborn, hpast⟩
  · rintro (⟨k, f, hf, hactor, hpast⟩ | ⟨k, f, hf, hborn, hpast⟩)
    · exact ⟨k, f, hf, (h f).mpr (Or.inl hactor), hpast⟩
    · exact ⟨k, f, hf, (h f).mpr (Or.inr hborn), hpast⟩

end Birth

/-- The positions that happen before position `j` are those its actor knows when
it performs the event at `j`. -/
theorem mem_incoming_iff {es : List ε} {e : ε} {i j : ℕ} (he : es[j]? = some e) :
    i ∈ (knowledge S (es.take j)).incoming S e ↔ HappensBefore S es i j := by
  have hj : j < es.length := (List.getElem?_eq_some_iff.mp he).1
  have hsplit : es = (es.take j ++ [e]) ++ es.drop (j + 1) := by
    conv_lhs => rw [← List.take_append_drop (j + 1) es, List.take_add_one, he]
    rfl
  have hlen : (es.take j).length = j := List.length_take_of_le hj.le
  have hpast := (knowledge_exact S (es.take j)).mem_incoming (e := e) (i := i)
  rw [hlen] at hpast
  have hprefix : HappensBefore S ((es.take j ++ [e]) ++ es.drop (j + 1)) i j ↔
      HappensBefore S (es.take j ++ [e]) i j :=
    happensBefore_append_left (by
      simp only [List.length_append, hlen, List.length_singleton]
      omega)
  rw [hpast, ← hprefix, ← hsplit]

/-- Happens-before is computed by the causal past of the later position. -/
instance decidableHappensBefore (es : List ε) (i j : ℕ) :
    Decidable (HappensBefore S es i j) :=
  match he : es[j]? with
  | some e => decidable_of_iff _ (mem_incoming_iff S he)
  | none => isFalse fun h => by
      have := h.lt_length
      rw [List.getElem?_eq_none_iff] at he
      omega

end Redzone.Foundation
