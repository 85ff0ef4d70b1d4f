/-
  Foundation/FirstSeen.lean --- a filter that keeps what it sees for the first time.

  Items go by one after the other.  Each has an output, and the filter keeps the output
  unless one with the same key is kept already or `cap` outputs are.  The outputs have
  labels, and what should be kept is one output for each label: that of the first item
  that carries the label.

  The key is a function of the label.  `keepsFirst_iff` says when the filter by keys does
  what the labels ask for: no two labels that occur share a key, and an item that carries
  a new label has it on its output.
-/
import Mathlib.Data.List.Induction
import Mathlib.Data.List.Nodup
import Mathlib.Data.Finset.Card

set_option autoImplicit false

namespace Redzone.Foundation

variable {α β κ ι : Type}

/-! ## The filter -/

/-- One item goes by. -/
def keepNew [DecidableEq κ] (out : α → β) (key : β → κ) (cap : ℕ) (kept : List β) (a : α) :
    List β :=
  if key (out a) ∈ kept.map key then kept
  else if cap ≤ kept.length then kept
  else kept ++ [out a]

/-- What is kept of `xs`. -/
def keepAll [DecidableEq κ] (out : α → β) (key : β → κ) (cap : ℕ) (xs : List α) : List β :=
  xs.foldl (keepNew out key cap) []

/-- For each label that occurs, the output of the first item that carries it is kept, and
no other output with the label. -/
def KeepsFirst [DecidableEq ι] (out : α → β) (label : β → ι) (labels : α → List ι) (kept : List β)
    (xs : List α) : Prop :=
  ∀ p, kept.filter (fun b => label b = p) = ((xs.find? fun a => p ∈ labels a).map out).toList

/-- The keys tell the labels of `xs` apart, and a label shows on the output of the first
item that carries it. -/
structure Separates [DecidableEq ι] (out : α → β) (label : β → ι) (labels : α → List ι)
    (keyOf : ι → κ) (xs : List α) : Prop where
  key : ∀ p ∈ xs.flatMap labels, ∀ q ∈ xs.flatMap labels, keyOf p = keyOf q → p = q
  first : ∀ p a, (xs.find? fun a => p ∈ labels a) = some a → label (out a) = p

section Filter

variable [DecidableEq κ] {out : α → β} {key : β → κ} {cap : ℕ} {kept : List β} {xs : List α}
  {a : α} {b : β}

theorem keepAll_snoc :
    keepAll out key cap (xs ++ [a]) = keepNew out key cap (keepAll out key cap xs) a := by
  simp [keepAll]

/-- No two outputs that are kept have one key. -/
theorem keepNew_nodup (h : (kept.map key).Nodup) :
    ((keepNew out key cap kept a).map key).Nodup := by
  unfold keepNew
  split
  · exact h
  · rename_i hnew
    split
    · exact h
    · rw [List.map_append, List.map_singleton, ← List.concat_eq_append]
      exact h.concat hnew

theorem keepAll_nodup : ((keepAll out key cap xs).map key).Nodup := by
  induction xs using List.reverseRecOn with
  | nil => exact List.nodup_nil
  | append_singleton xs a ih =>
      rw [keepAll_snoc]
      exact keepNew_nodup ih

theorem mem_keepNew (h : b ∈ keepNew out key cap kept a) : b ∈ kept ∨ b = out a := by
  unfold keepNew at h
  split at h
  · exact .inl h
  · split at h
    · exact .inl h
    · simpa using h

/-- What is kept is the output of an item. -/
theorem mem_keepAll (h : b ∈ keepAll out key cap xs) : ∃ a ∈ xs, out a = b := by
  induction xs using List.reverseRecOn with
  | nil => exact absurd h List.not_mem_nil
  | append_singleton xs a ih =>
      rw [keepAll_snoc] at h
      rcases mem_keepNew h with h | rfl
      · obtain ⟨a', ha', rfl⟩ := ih h
        exact ⟨a', List.mem_append_left _ ha', rfl⟩
      · exact ⟨a, List.mem_append_right _ List.mem_cons_self, rfl⟩

end Filter

/-! ## Labels -/

section Labels

variable [DecidableEq ι] {out : α → β} {label : β → ι} {labels : α → List ι} {keyOf : ι → κ}
  {xs ys : List α} {p : ι} {a : α}

/-- A label occurs when some item carries it. -/
theorem find?_isSome_iff : (xs.find? fun a => p ∈ labels a).isSome = true ↔
    p ∈ xs.flatMap labels := by
  rw [List.find?_isSome, List.mem_flatMap]
  simp only [decide_eq_true_eq]

theorem exists_find?_of_mem (h : p ∈ xs.flatMap labels) :
    ∃ a, (xs.find? fun a => p ∈ labels a) = some a :=
  Option.isSome_iff_exists.mp (find?_isSome_iff.mpr h)

theorem find?_eq_none_of_notMem (h : p ∉ xs.flatMap labels) :
    (xs.find? fun a => p ∈ labels a) = none := by
  rw [← Option.not_isSome_iff_eq_none, find?_isSome_iff]
  exact h

/-- A part of the items from the start is told apart as well. -/
theorem Separates.left (h : Separates out label labels keyOf (xs ++ ys)) :
    Separates out label labels keyOf xs := by
  have hsub : ∀ p ∈ xs.flatMap labels, p ∈ (xs ++ ys).flatMap labels := fun p hp => by
    rw [List.flatMap_append]
    exact List.mem_append_left _ hp
  refine ⟨fun p hp q hq => h.key p (hsub p hp) q (hsub q hq), fun p a ha => h.first p a ?_⟩
  rw [List.find?_append, ha]
  rfl

/-- Labels that no earlier item carries come with the output, or not at all. -/
theorem Separates.find?_snoc (h : Separates out label labels keyOf (xs ++ [a]))
    (hlabel : label (out a) ∈ labels a) :
    (((xs ++ [a]).find? fun a => p ∈ labels a).map out).toList =
      ((xs.find? fun a => p ∈ labels a).map out).toList ++
        if label (out a) = p ∧ p ∉ xs.flatMap labels then [out a] else [] := by
  rw [List.find?_append]
  rcases Classical.em (p ∈ xs.flatMap labels) with hold | hnew
  · obtain ⟨b, hb⟩ := exists_find?_of_mem hold
    simp [hb, hold]
  · have hnone := find?_eq_none_of_notMem hnew
    rcases Classical.em (p ∈ labels a) with hp | hp
    · have hfirst : label (out a) = p := by
        refine h.first p a ?_
        rw [List.find?_append, hnone]
        simp [hp]
      simp [hnone, hp, hfirst, hnew]
    · have hne : label (out a) ≠ p := by
        rintro rfl
        exact hp hlabel
      simp [hnone, hp, hne]

variable [DecidableEq κ] {key : β → κ} {cap : ℕ}

/-- A key that the labels tell apart is new when its label is. -/
theorem key_notMem_of_separates (hkey : ∀ b, key b = keyOf (label b))
    (hlabel : ∀ a, label (out a) ∈ labels a)
    (h : Separates out label labels keyOf (xs ++ [a]))
    (hnew : label (out a) ∉ xs.flatMap labels) :
    key (out a) ∉ (keepAll out key cap xs).map key := by
  intro hmem
  obtain ⟨b, hb, hbkey⟩ := List.mem_map.mp hmem
  obtain ⟨a', ha', rfl⟩ := mem_keepAll hb
  have hold : label (out a') ∈ xs.flatMap labels :=
    List.mem_flatMap.mpr ⟨a', ha', hlabel a'⟩
  have hlast : label (out a) ∈ (xs ++ [a]).flatMap labels :=
    List.mem_flatMap.mpr ⟨a, List.mem_append_right _ List.mem_cons_self, hlabel a⟩
  have heq : label (out a') = label (out a) := by
    refine h.key _ ?_ _ hlast (by rw [← hkey, ← hkey, hbkey])
    rw [List.flatMap_append]
    exact List.mem_append_left _ hold
  exact hnew (heq ▸ hold)

/-- There is room for an output with a new label while fewer labels occur than are kept at
most. -/
theorem length_lt_of_new (hkey : ∀ b, key b = keyOf (label b))
    (hlabel : ∀ a, label (out a) ∈ labels a)
    (hnew : label (out a) ∉ xs.flatMap labels)
    (hcap : ((xs ++ [a]).flatMap labels).toFinset.card ≤ cap) :
    (keepAll out key cap xs).length < cap := by
  have hnodup : ((keepAll out key cap xs).map label).Nodup := by
    have hcomp : ((keepAll out key cap xs).map label).map keyOf =
        (keepAll out key cap xs).map key := by
      rw [List.map_map]
      exact List.map_congr_left fun b _ => (hkey b).symm
    have hkeys : ((keepAll out key cap xs).map key).Nodup := keepAll_nodup
    exact (hcomp ▸ hkeys).of_map
  have hsub : ∀ p ∈ (keepAll out key cap xs).map label, p ∈ xs.flatMap labels := by
    intro p hp
    obtain ⟨b, hb, rfl⟩ := List.mem_map.mp hp
    obtain ⟨a', ha', rfl⟩ := mem_keepAll hb
    exact List.mem_flatMap.mpr ⟨a', ha', hlabel a'⟩
  have hcons : (label (out a) :: (keepAll out key cap xs).map label).Nodup :=
    List.nodup_cons.mpr ⟨fun hmem => hnew (hsub _ hmem), hnodup⟩
  have hall : (label (out a) :: (keepAll out key cap xs).map label).toFinset ⊆
      ((xs ++ [a]).flatMap labels).toFinset := by
    intro p hp
    rw [List.mem_toFinset] at hp ⊢
    rw [List.flatMap_append]
    rcases List.mem_cons.mp hp with rfl | hp
    · exact List.mem_append_right _ (by simpa using hlabel a)
    · exact List.mem_append_left _ (hsub p hp)
  have hle := Finset.card_le_card hall
  rw [List.toFinset_card_of_nodup hcons, List.length_cons, List.length_map] at hle
  omega

/-- Where the keys tell the labels apart the filter keeps what it should. -/
theorem keepsFirst_of_separates (hkey : ∀ b, key b = keyOf (label b))
    (hlabel : ∀ a, label (out a) ∈ labels a)
    (hcap : (xs.flatMap labels).toFinset.card ≤ cap)
    (h : Separates out label labels keyOf xs) :
    KeepsFirst out label labels (keepAll out key cap xs) xs := by
  induction xs using List.reverseRecOn with
  | nil => exact fun p => rfl
  | append_singleton xs a ih =>
      have hsub : (xs.flatMap labels).toFinset ⊆ ((xs ++ [a]).flatMap labels).toFinset := by
        intro p hp
        rw [List.mem_toFinset] at hp ⊢
        rw [List.flatMap_append]
        exact List.mem_append_left _ hp
      have hold := ih ((Finset.card_le_card hsub).trans hcap) h.left
      intro p
      rw [h.find?_snoc (hlabel a), ← hold p, keepAll_snoc]
      rcases Classical.em (label (out a) ∈ xs.flatMap labels) with hseen | hnew
      · -- an output with the label is kept, so the key is not new
        obtain ⟨b, hb⟩ := exists_find?_of_mem hseen
        have hkept := hold (label (out a))
        rw [hb, Option.map_some, Option.toList_some] at hkept
        have hmem : out b ∈ keepAll out key cap xs ∧ label (out b) = label (out a) := by
          have hin := List.mem_filter.mp (hkept ▸ List.mem_singleton_self (out b))
          exact ⟨hin.1, by simpa using hin.2⟩
        have hin : key (out a) ∈ (keepAll out key cap xs).map key :=
          List.mem_map.mpr ⟨out b, hmem.1, by rw [hkey, hkey, hmem.2]⟩
        have hno : ¬ (label (out a) = p ∧ p ∉ xs.flatMap labels) := by
          rintro ⟨rfl, hp⟩
          exact hp hseen
        rw [keepNew, if_pos hin, if_neg hno, List.append_nil]
      · have hkeyNew : key (out a) ∉ (keepAll out key cap xs).map key :=
          key_notMem_of_separates hkey hlabel h hnew
        have hroom := length_lt_of_new hkey hlabel hnew hcap
        rw [keepNew, if_neg hkeyNew, if_neg (Nat.not_le.mpr hroom), List.filter_append]
        congr 1
        rcases eq_or_ne (label (out a)) p with rfl | hne
        · simp [hnew]
        · simp [hne]

/-- The filter keeps, for each label that occurs, just the output of the first item that
carries it, exactly when the keys tell the labels apart. -/
theorem keepsFirst_iff (hkey : ∀ b, key b = keyOf (label b))
    (hlabel : ∀ a, label (out a) ∈ labels a)
    (hcap : (xs.flatMap labels).toFinset.card ≤ cap) :
    KeepsFirst out label labels (keepAll out key cap xs) xs ↔
      Separates out label labels keyOf xs := by
  refine ⟨fun h => ?_, keepsFirst_of_separates hkey hlabel hcap⟩
  have hkept : ∀ p a, (xs.find? fun a => p ∈ labels a) = some a →
      out a ∈ keepAll out key cap xs ∧ label (out a) = p := by
    intro p a ha
    have hp := h p
    rw [ha, Option.map_some, Option.toList_some] at hp
    have hin := List.mem_filter.mp (hp ▸ List.mem_singleton_self (out a))
    exact ⟨hin.1, by simpa using hin.2⟩
  refine ⟨fun p hp q hq heq => ?_, fun p a ha => (hkept p a ha).2⟩
  obtain ⟨a, ha⟩ := exists_find?_of_mem hp
  obtain ⟨b, hb⟩ := exists_find?_of_mem hq
  obtain ⟨hakept, rfl⟩ := hkept p a ha
  obtain ⟨hbkept, rfl⟩ := hkept q b hb
  have hout : out a = out b := by
    refine List.inj_on_of_nodup_map keepAll_nodup hakept hbkept ?_
    rw [hkey, hkey, heq]
  rw [hout]

end Labels

end Redzone.Foundation
