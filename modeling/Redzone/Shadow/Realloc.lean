/-
  Shadow/Realloc.lean --- `__redzone_realloc` as an allocation, a copy and a free.

  The three parts are followed one after the other in the states that heap calls and
  stores to addressable bytes reach: the allocation leaves the classification of the old
  pointer as it was, the copy goes to user bytes of the new block, and the free meets the
  header of the old one.  What differs from one kind of pointer to the other is the number
  of bytes that are copied, and what the free makes of the pointer.
-/
import Redzone.Shadow.FreePointer
import Redzone.Shadow.Geometry

set_option autoImplicit false

namespace Redzone.Shadow

open Redzone.Foundation

/-! ## The parts of the call -/

/-- `copy`: how many bytes `__redzone_realloc` carries over. -/
def reallocCopy (s : Rt) (ptr size : ℕ) : ℕ :=
  match reallocSource s ptr with
  | some old => if old.freed then 0 else min old.userSize size
  | none => 0

/-- The state after the copy. -/
def Rt.copied (s : Rt) (np ptr n : ℕ) : Rt :=
  if n ≠ 0 then { s with mem := memmove s.mem np ptr n } else s

/-- What the system hands out for a request of `total` bytes is an extent of its own. -/
def World.HandsOut (w : World) (sys : Sys) (total : ℕ) : Prop :=
  ∀ base, sys.malloc = some base → w.Fresh base (base + total)

instance (w : World) (sys : Sys) (total : ℕ) : Decidable (w.HandsOut sys total) :=
  match h : sys.malloc with
  | none => .isTrue fun base hbase => by simp [h] at hbase
  | some base => decidable_of_iff (w.Fresh base (base + total))
      ⟨fun hfresh base' hbase => by
        obtain rfl : base = base' := Option.some.inj (h.symm.trans hbase)
        exact hfresh, fun hfresh => hfresh base h⟩

/-- A request of `size` bytes is granted: it is not too large, the system has memory, and
the table has room. -/
def Rt.Grants (s : Rt) (size : ℕ) (sys : Sys) : Prop :=
  size ≤ sizeMax - 2 * redzoneSize ∧ sys.malloc ≠ none ∧
    (s.blocks.length = s.cap → sys.growOk = true)

instance (s : Rt) (size : ℕ) (sys : Sys) : Decidable (s.Grants size sys) :=
  inferInstanceAs (Decidable (_ ∧ _ ∧ (_ → _)))

section Parts

variable {s s₁ : Rt} {ptr size np n x : ℕ} {file : Option String} {line : ℤ} {sys : Sys}

/-- What `__redzone_realloc` makes of the answer of `__redzone_malloc`. -/
theorem redzoneRealloc_eq (hp : ptr ≠ 0) (hsize : size ≠ 0) :
    redzoneRealloc s ptr size file line sys =
      match redzoneMalloc s size file line sys with
      | .error e => .error e
      | .ok (none, s) => .ok (none, s)
      | .ok (some np, s) =>
        match redzoneFree (s.copied np ptr (reallocCopy s ptr size)) ptr with
        | .error e => .error e
        | .ok s => .ok (some np, s) := by
  unfold redzoneRealloc
  rw [if_neg hp, if_neg hsize]
  rfl

theorem copied_blocks : (s.copied np ptr n).blocks = s.blocks := by
  unfold Rt.copied
  split <;> rfl

theorem copied_eq : s.copied np ptr n = { s with mem := (s.copied np ptr n).mem } := by
  unfold Rt.copied
  split <;> rfl

theorem copied_inside (hx : x < n) : (s.copied np ptr n).mem (np + x) = s.mem (ptr + x) := by
  have hin : np ≤ np + x ∧ np + x < np + n := by omega
  unfold Rt.copied
  rw [if_pos (by omega)]
  show (if np ≤ np + x ∧ np + x < np + n then _ else _) = _
  rw [if_pos hin, Nat.add_sub_cancel_left]

theorem copied_outside (hx : ¬ (np ≤ x ∧ x < np + n)) : (s.copied np ptr n).mem x = s.mem x := by
  unfold Rt.copied
  split
  · exact if_neg hx
  · rfl

theorem reallocCopy_le : reallocCopy s ptr size ≤ size := by
  unfold reallocCopy
  split
  · split
    · exact Nat.zero_le _
    · exact Nat.min_le_right _ _
  · exact Nat.zero_le _

/-- Without slack the user region starts right after the left red zone. -/
def plainBlock (base size : ℕ) (file : Option String) (line : ℤ) : Block :=
  ⟨base, size + 2 * redzoneSize, clearLow ((base + redzoneSize + (redzoneSize - 1)) % wordSize)
    redzoneSize, size, false, file, line⟩

/-- `__redzone_malloc` up to the table. -/
theorem redzoneMalloc_cases (P : Except Abort (Option ℕ × Rt) → Prop)
    (hnull : size > sizeMax - 2 * redzoneSize ∨ sys.malloc = none → P (.ok (none, s)))
    (hfull : ∀ base, sys.malloc = some base → size ≤ sizeMax - 2 * redzoneSize →
      s.blocks.length = s.cap → sys.growOk = false → P (.error .outOfMemory))
    (hsome : ∀ base np s₁, sys.malloc = some base → size ≤ sizeMax - 2 * redzoneSize →
      (s.blocks.length = s.cap → sys.growOk = true) →
      s₁.blocks = s.blocks ++ [plainBlock base size file line] →
      s₁.mem = store64 (store64 s.mem (np - headerSize) headerMagic) (np - 8) s.blocks.length →
      P (.ok (some np, s₁))) :
    P (redzoneMalloc s size file line sys) := by
  have hslack : ¬ redzoneSize > redzoneSize := by decide
  unfold redzoneMalloc rzAllocate
  simp only [if_neg hslack, Nat.sub_zero, Nat.add_zero]
  split
  · rename_i hbig
    exact hnull (Or.inl hbig)
  rename_i hbig
  have hle : size ≤ sizeMax - 2 * redzoneSize := Nat.not_lt.mp hbig
  split
  · rename_i hmalloc
    exact hnull (Or.inr hmalloc)
  · rename_i base hmalloc
    split
    · rename_i e he
      unfold recordBlock at he
      split at he
      · rename_i hlen
        split at he
        · simp at he
        · rename_i hgrow
          obtain rfl := Except.error.inj he
          exact hfull base hmalloc hle hlen (by simpa using hgrow)
      · simp at he
    · rename_i idx s₁ hrecord
      obtain ⟨rfl, hblocks, -, hmem⟩ := recordBlock_ok hrecord
      refine hsome base _ _ hmalloc hle ?_ hblocks (by rw [hmem])
      intro hlen
      by_contra hgrow
      unfold recordBlock at hrecord
      rw [if_pos hlen, if_neg hgrow] at hrecord
      simp at hrecord

/-- A block that is recorded lies in the extent that the system has handed out, and only
its header is written. -/
theorem redzoneMalloc_base (h : redzoneMalloc s size file line sys = .ok (some np, s₁)) :
    (∃ base, sys.malloc = some base ∧
      s₁.blocks = s.blocks ++ [plainBlock base size file line]) ∧
    s₁.mem = store64 (store64 s.mem (np - headerSize) headerMagic) (np - 8) s.blocks.length := by
  revert h
  apply redzoneMalloc_cases (P := fun r => r = .ok (some np, s₁) →
    (∃ base, sys.malloc = some base ∧
      s₁.blocks = s.blocks ++ [plainBlock base size file line]) ∧
    s₁.mem = store64 (store64 s.mem (np - headerSize) headerMagic) (np - 8) s.blocks.length)
  · intro _ h
    simp at h
  · intro base _ _ _ _ h
    simp at h
  · intro base np' s₂ hmalloc _ _ hblocks hmem h
    obtain ⟨hnp, rfl⟩ := Prod.mk.inj (Except.ok.inj h)
    obtain rfl := Option.some.inj hnp
    exact ⟨⟨base, hmalloc, hblocks⟩, hmem⟩

theorem redzoneMalloc_error {e : Abort} (h : redzoneMalloc s size file line sys = .error e) :
    e = .outOfMemory ∧ s.blocks.length = s.cap ∧ sys.growOk = false := by
  revert h
  apply redzoneMalloc_cases (P := fun r => r = .error e →
    e = .outOfMemory ∧ s.blocks.length = s.cap ∧ sys.growOk = false)
  · intro _ h
    simp at h
  · intro base _ _ hfull hgrow h
    exact ⟨(Except.error.inj h).symm, hfull, hgrow⟩
  · intro base np s₁ _ _ _ _ _ h
    simp at h

/-- When `__redzone_malloc` returns a block. -/
theorem redzoneMalloc_isSome :
    (∃ np s₁, redzoneMalloc s size file line sys = .ok (some np, s₁)) ↔ s.Grants size sys := by
  apply redzoneMalloc_cases (P := fun r => (∃ np s₁, r = .ok (some np, s₁)) ↔ s.Grants size sys)
  · intro hnull
    refine iff_of_false (by simp) fun h => ?_
    rcases hnull with hbig | hnone
    · exact absurd h.1 (Nat.not_le.mpr hbig)
    · exact h.2.1 hnone
  · intro base _ _ hlen hgrow
    refine iff_of_false (by simp) fun h => ?_
    rw [h.2.2 hlen] at hgrow
    exact Bool.noConfusion hgrow
  · intro base np s₁ hmalloc hle hgrow _ _
    exact iff_of_true ⟨np, s₁, rfl⟩ ⟨hle, by simp [hmalloc], hgrow⟩

end Parts

/-! ## States on the way -/

section Intact

variable {w : World} {rt : Rt} {b : Block} {i size np : ℕ} {file : Option String} {line : ℤ}
  {sys : Sys}

/-- Memory may change at addressable bytes. -/
theorem World.Intact.write (h : w.Intact) {mem : Bytes}
    (hmem : ∀ x, bytePoisoned w.rt.shadow x = true → mem x = w.rt.mem x) :
    World.Intact { w with rt := { w.rt with mem := mem } } :=
  ⟨h.inv, h.painted, h.roomy, h.painted.headed_write h.roomy h.headed hmem⟩

theorem World.Intact.free (h : w.Intact) (heff : FreeEffect w.rt rt i b)
    (hmem : rt.mem = w.rt.mem) : World.Intact { w with rt := rt } :=
  ⟨h.inv.free heff, h.painted.free heff, h.roomy.free heff, headed_free h.headed ⟨heff, hmem⟩⟩

/-- The block of a successful allocation, at the start of its extent. -/
structure World.Malloced (w : World) (sys : Sys) (size : ℕ) (rt : Rt) (b : Block) : Prop where
  size_eq : b.userSize = size
  total : b.totalSize = size + 2 * redzoneSize
  user : b.userAddr = b.realBase + redzoneSize
  malloc : sys.malloc = some b.realBase
  fresh : w.Fresh b.realBase (b.realBase + b.totalSize)
  blocks : rt.blocks = w.rt.blocks ++ [b]
  live : b.freed = false
  mem : rt.mem = store64 (store64 w.rt.mem (b.userAddr - headerSize) headerMagic) (b.userAddr - 8)
    w.rt.blocks.length
  intact : World.Intact { w with rt := rt }

theorem World.Intact.malloc (h : w.Intact) (hfresh : w.HandsOut sys (size + 2 * redzoneSize))
    (hok : redzoneMalloc w.rt size file line sys = .ok (some np, rt)) :
    ∃ b, np = b.userAddr ∧ w.Malloced sys size rt b := by
  obtain ⟨b, hnp, hsize, halloc⟩ := (redzoneMalloc_ok hok).resolve_left fun h => by simp at h
  obtain ⟨⟨base, hmalloc, hblocks⟩, hmem⟩ := redzoneMalloc_base hok
  have hb : b = plainBlock base size file line := by
    have heq := halloc.effect.blocks.symm.trans hblocks
    exact List.singleton_inj.mp (List.append_cancel_left heq)
  have hbase : b.realBase = base := by rw [hb, plainBlock]
  have htotal : b.totalSize = size + 2 * redzoneSize := by rw [hb, plainBlock]
  have hextent : w.Fresh b.realBase (b.realBase + b.totalSize) := by
    rw [hbase, htotal]
    exact hfresh base hmalloc
  have hplaced := halloc.effect.layout hextent.1 (hextent.2.1.trans (by decide))
  have huser : b.userAddr = b.realBase + redzoneSize := by
    have hleft := hplaced.1
    have hright := hplaced.2.2
    omega
  have hpainted := h.painted.alloc soundFresh_fresh halloc.effect hextent
  have hroomy := h.roomy.alloc soundFresh_fresh halloc.effect hextent
  obtain rfl : np = b.userAddr := Option.some.inj hnp
  refine ⟨b, rfl, hsize, htotal, huser, hbase ▸ hmalloc, hextent, halloc.effect.blocks,
    halloc.effect.live, hmem, ?_⟩
  exact ⟨h.inv.alloc halloc.effect hextent, hpainted, hroomy,
    World.Painted.headed_alloc h.headed soundFresh_fresh halloc hextent hpainted hroomy (by simp)⟩

/-- Outside the extent of the new block memory is as before. -/
theorem World.Malloced.mem_outside {x : ℕ} (h : w.Malloced sys size rt b)
    (hx : ¬ (b.realBase ≤ x ∧ x < b.realBase + redzoneSize)) : rt.mem x = w.rt.mem x := by
  have huser := h.user
  simp only [redzoneSize] at huser hx
  rw [h.mem, store64_of_out (by omega), store64_of_out (by simp only [headerSize]; omega)]

/-- A copy into the user bytes of the new block keeps the headers. -/
theorem World.Malloced.copied (h : w.Malloced sys size rt b) (ptr : ℕ) {n : ℕ} (hn : n ≤ size) :
    World.Intact { w with rt := rt.copied b.userAddr ptr n } := by
  rw [copied_eq]
  refine h.intact.write fun x hx => copied_outside fun hin => ?_
  have hsize := h.size_eq
  have huser : World.UserByte { w with rt := rt } x :=
    Or.inl ⟨b, by simp [h.blocks], h.live, hin.1, by omega⟩
  have hok := h.intact.inv.userByte_ok huser
  rw [hx] at hok
  exact Bool.noConfusion hok

end Intact

/-! ## Live blocks -/

/-- Block `i` has been resized: `b'` is a fresh live block of the new size with the bytes of
`b` as far as they fit, `b` is in quarantine, and every other block is as it was. -/
structure World.Resized (w : World) (rt : Rt) (i : ℕ) (b b' : Block) (size : ℕ) : Prop where
  extent : w.Fresh b'.realBase (b'.realBase + b'.totalSize)
  size_eq : b'.userSize = size
  live : b'.freed = false
  blocks : rt.blocks = w.rt.blocks.set i { b with freed := true } ++ [b']
  carried : ∀ k < min b.userSize size, rt.mem (b'.userAddr + k) = w.rt.mem (b.userAddr + k)
  mem : ∀ x, ¬ (b'.realBase ≤ x ∧ x < b'.realBase + b'.totalSize) → rt.mem x = w.rt.mem x
  addressable : ∀ x, b'.userAddr ≤ x → x < b'.userAddr + size → bytePoisoned rt.shadow x = false
  quarantined : ∀ x, b.userAddr ≤ x → x < b.userAddr + b.userSize →
    bytePoisoned rt.shadow x = true
  others : ∀ j c, j ≠ i → w.rt.blocks[j]? = some c → rt.blocks[j]? = some c ∧
    ∀ x, c.realBase ≤ x → x < c.realBase + c.totalSize →
      rt.mem x = w.rt.mem x ∧ shadowLoad rt.shadow x = shadowLoad w.rt.shadow x

section Live

variable {w : World} {rt rt₁ : Rt} {b b' c : Block} {i size np x : ℕ} {file : Option String}
  {line : ℤ} {sys : Sys}

/-- The bytes of a freed block are poisoned. -/
theorem World.Inv.freed_poisoned (h : w.Inv) (hb : b ∈ w.rt.blocks) (hfreed : b.freed = true)
    (hx : b.realBase ≤ x ∧ x < b.realBase + b.totalSize) :
    bytePoisoned w.rt.shadow x = true := by
  have hround : b.realBase + b.totalSize ≤ roundUp8 (b.realBase + b.totalSize) := by
    simp only [roundUp8]
    omega
  refine (h.poisoned_of_mem (World.mem_objs.mpr (Or.inl ⟨b, hb, rfl⟩)) ?_).mpr fun huser => ?_
  · exact ⟨hx.1, hx.2.trans_le hround⟩
  · have hlive := huser.1
    simp [Obj.region, Block.obj, hfreed] at hlive

/-- The shadow of a block depends on its entry alone. -/
theorem World.Painted.shadowLoad_block (h : w.Painted) (h' : World.Painted { w with rt := rt })
    (hc : c ∈ w.rt.blocks) (hc' : c ∈ rt.blocks)
    (hx : c.realBase ≤ x ∧ x < c.realBase + c.totalSize) :
    shadowLoad rt.shadow x = shadowLoad w.rt.shadow x := by
  rcases Nat.lt_or_ge x shadowLimit with hlt | hge
  · have hz : ∀ {w : World}, c ∈ w.rt.blocks → (⟨c.obj, rzPoison⟩ : Zoned) ∈ w.zoned := by
      intro w hc
      rw [World.zoned_eq]
      exact List.mem_append_left _ (List.mem_map_of_mem hc)
    have hmem := Block.tile_mem hx rzPoison
    rw [Shadow.Painted.load_of_mem h (hz hc) hmem hlt,
      Shadow.Painted.load_of_mem h' (hz (w := { w with rt := rt }) hc') hmem hlt]
  · rw [shadowLoad_of_le hge, shadowLoad_of_le hge]

/-- A live block is found, and its bytes are carried over. -/
theorem World.Intact.reallocCopy_live (h : w.Intact) (hb : w.rt.blocks[i]? = some b)
    (hlive : b.freed = false) : reallocCopy w.rt b.userAddr size = min b.userSize size := by
  unfold reallocCopy reallocSource
  rw [h.lookup_iff.mpr ⟨b, hb, rfl⟩]
  simp [hb, hlive]

theorem World.Malloced.entry (h : w.Malloced sys size rt b) (hc : w.rt.blocks[i]? = some c) :
    rt.blocks[i]? = some c := by
  rw [h.blocks, List.getElem?_append_left (List.getElem?_eq_some_iff.mp hc).1, hc]

/-- The copy and the free after a successful allocation. -/
theorem World.Malloced.resized (h : w.Intact) (hm : w.Malloced sys size rt₁ b')
    (hb : w.rt.blocks[i]? = some b)
    (heff : FreeEffect (rt₁.copied b'.userAddr b.userAddr (min b.userSize size)) rt i b)
    (hmem : rt.mem = (rt₁.copied b'.userAddr b.userAddr (min b.userSize size)).mem) :
    w.Resized rt i b b' size := by
  have hbmem := List.mem_of_getElem? hb
  have hi : i < w.rt.blocks.length := (List.getElem?_eq_some_iff.mp hb).1
  have hcopied : World.Intact
      { w with rt := rt₁.copied b'.userAddr b.userAddr (min b.userSize size) } :=
    hm.copied b.userAddr (Nat.min_le_right _ _)
  have hintact : World.Intact { w with rt := rt } := hcopied.free heff hmem
  have hblocks : rt.blocks = w.rt.blocks.set i { b with freed := true } ++ [b'] := by
    rw [heff.blocks, copied_blocks, hm.blocks, List.set_append_left _ _ hi]
  have hdisj : ∀ c ∈ w.rt.blocks, b'.realBase + b'.totalSize ≤ c.realBase ∨
      c.realBase + c.totalSize ≤ b'.realBase :=
    fun c hc => hm.fresh.2.2 c.obj (World.mem_objs.mpr (Or.inl ⟨c, hc, rfl⟩))
  have hsize := hm.size_eq
  have htotal := hm.total
  have huser := hm.user
  simp only [redzoneSize] at htotal huser
  have hunchanged : ∀ x, ¬ (b'.realBase ≤ x ∧ x < b'.realBase + b'.totalSize) →
      rt.mem x = w.rt.mem x := by
    intro x hx
    have hle : min b.userSize size ≤ size := Nat.min_le_right _ _
    rw [hmem, copied_outside (by omega), hm.mem_outside (by simp only [redzoneSize]; omega)]
  refine ⟨hm.fresh, hsize, hm.live, hblocks, ?_, hunchanged, ?_, ?_, ?_⟩
  · -- the old bytes lie outside the new extent
    intro k hk
    have hdb := hdisj b hbmem
    have hin := h.inv.userAddr_mem hbmem
    have hok := h.inv.ok b.obj (World.mem_objs.mpr (Or.inl ⟨b, hbmem, rfl⟩))
    have hguard := hok.guard
    simp only [Block.obj, redzoneSize] at hguard
    have hkb : k < b.userSize := lt_of_lt_of_le hk (Nat.min_le_left _ _)
    rw [hmem, copied_inside hk, hm.mem_outside]
    simp only [redzoneSize]
    omega
  · intro x hlo hhi
    refine hintact.inv.userByte_ok (Or.inl ⟨b', ?_, hm.live, hlo, by omega⟩)
    rw [hblocks]
    exact List.mem_append_right _ (List.mem_singleton_self b')
  · intro x hlo hhi
    have hfreed : { b with freed := true } ∈ rt.blocks := by
      rw [hblocks]
      exact List.mem_append_left _ (List.mem_set hi _)
    have hin := h.inv.userAddr_mem hbmem
    have hok := h.inv.ok b.obj (World.mem_objs.mpr (Or.inl ⟨b, hbmem, rfl⟩))
    have hguard := hok.guard
    simp only [Block.obj, redzoneSize] at hguard
    exact hintact.inv.freed_poisoned hfreed rfl (by simp only; omega)
  · intro j c hj hc
    have hjlt : j < w.rt.blocks.length := (List.getElem?_eq_some_iff.mp hc).1
    have hcmem := List.mem_of_getElem? hc
    have hentry : rt.blocks[j]? = some c := by
      rw [hblocks, List.getElem?_append_left (by simpa using hjlt), List.getElem?_set_ne hj.symm, hc]
    refine ⟨hentry, fun x hlo hhi => ⟨hunchanged x ?_, ?_⟩⟩
    · have hdc := hdisj c hcmem
      omega
    · exact h.painted.shadowLoad_block hintact.painted hcmem (List.mem_of_getElem? hentry) ⟨hlo, hhi⟩

theorem World.Intact.realloc_live (h : w.Intact) (hb : w.rt.blocks[i]? = some b)
    (hlive : b.freed = false) (hsize : 1 ≤ size)
    (hfresh : w.HandsOut sys (size + 2 * redzoneSize)) :
    Returns w.rt sys (fun r rt => (r = none ∧ rt = w.rt) ∨
        ∃ b', r = some b'.userAddr ∧ w.Resized rt i b b' size)
      (redzoneRealloc w.rt b.userAddr size file line sys) := by
  rw [redzoneRealloc_eq (h.userAddr_ne (List.mem_of_getElem? hb)) (by omega)]
  cases hmalloc : redzoneMalloc w.rt size file line sys with
  | error e =>
      exact redzoneMalloc_error hmalloc
  | ok result =>
      obtain ⟨r, rt₁⟩ := result
      cases r with
      | none =>
          rcases redzoneMalloc_ok hmalloc with ⟨-, rfl⟩ | ⟨b', hnone, -⟩
          · exact Or.inl ⟨rfl, rfl⟩
          · simp at hnone
      | some np =>
          obtain ⟨b', rfl, hm⟩ := h.malloc hfresh hmalloc
          have hb₁ := hm.entry hb
          have hcopy : reallocCopy rt₁ b.userAddr size = min b.userSize size :=
            hm.intact.reallocCopy_live hb₁ hlive
          have hintact := hm.copied b.userAddr (Nat.min_le_right b.userSize size)
          obtain ⟨rt, hfree, heff, -, hmem⟩ :=
            hintact.free_live (by rw [copied_blocks]; exact hb₁) hlive
          simp only [hcopy]
          rw [hfree]
          exact Or.inr ⟨b', rfl, hm.resized h hb heff hmem⟩

end Live

/-- **Atomic reallocation.**  In every state that heap calls and stores to addressable bytes
reach, `__redzone_realloc` of a live block returns `NULL` and changes nothing, or resizes the
block. -/
theorem realloc_atomic {ops : List Op} {w : World} (hw : worldRun ops = some w)
    (hstores : EveryStep World.step World.MayStore .initial ops) {i : ℕ} {b : Block}
    (hb : w.rt.blocks[i]? = some b) (hlive : b.freed = false) {size : ℕ} (hsize : 1 ≤ size)
    (file : Option String) (line : ℤ) {sys : Sys}
    (hfresh : w.HandsOut sys (size + 2 * redzoneSize)) :
    Returns w.rt sys (fun r rt => (r = none ∧ rt = w.rt) ∨
        ∃ b', r = some b'.userAddr ∧ w.Resized rt i b b' size)
      (redzoneRealloc w.rt b.userAddr size file line sys) :=
  (World.intact_of_run hw hstores).realloc_live hb hlive hsize hfresh

theorem realloc_atomic_storeRun : ∃ w b, worldRun storeRun = some w ∧
    w.rt.blocks[2]? = some b ∧
    ∃ rt, redzoneRealloc w.rt b.userAddr 100 none 0 ⟨some 0x4000, true⟩ =
        .ok (some 0x4010, rt) ∧
      ∃ b', b'.userAddr = 0x4010 ∧ w.Resized rt 2 b b' 100 := by
  have hany : (worldRun storeRun).any (fun w : World =>
      (w.rt.blocks[2]?).any (fun b => !b.freed &&
        (redzoneRealloc w.rt b.userAddr 100 none 0 ⟨some 0x4000, true⟩).toOption.map Prod.fst ==
          some (some 0x4010)) &&
        decide (w.HandsOut ⟨some 0x4000, true⟩ 132)) = true := by
    decide +kernel
  obtain ⟨w, hw, hcond⟩ := (Option.any_eq_true ..).mp hany
  rw [Bool.and_eq_true, decide_eq_true_eq] at hcond
  obtain ⟨b, hb, hblock⟩ := (Option.any_eq_true ..).mp hcond.1
  rw [Bool.and_eq_true, beq_iff_eq] at hblock
  have hstores : EveryStep World.step World.MayStore .initial storeRun := by decide +kernel
  have hreturns := realloc_atomic hw hstores hb (by simpa using hblock.1) (by decide) none 0 hcond.2
  obtain ⟨rt, hok, hresult⟩ := hreturns.of_value hblock.2
  rcases hresult with ⟨hnone, -⟩ | ⟨b', hb', hresized⟩
  · simp at hnone
  · exact ⟨w, b, hw, hb, rt, hok, b', (Option.some.inj hb').symm, hresized⟩

/-- 64 blocks, which is all that the table has room for. -/
def fullRun : List Op :=
  (List.range 64).map fun i => .heap (.malloc 8 none 0 ⟨some (0x1000 + 0x100 * i), true⟩)

/-- Where the table is full and cannot grow, the call neither returns `NULL` nor a block: the
process ends. -/
theorem realloc_aborts_fullRun : ∃ w b, worldRun fullRun = some w ∧
    EveryStep World.step World.MayStore .initial fullRun ∧ w.rt.blocks[0]? = some b ∧
    b.freed = false ∧ w.HandsOut ⟨some 0x9000, false⟩ 48 ∧
    ¬ ∃ r rt, redzoneRealloc w.rt b.userAddr 16 none 0 ⟨some 0x9000, false⟩ = .ok (r, rt) := by
  have hany : (worldRun fullRun).any (fun w : World =>
      (w.rt.blocks[0]?).any (fun b => !b.freed &&
        (redzoneRealloc w.rt b.userAddr 16 none 0 ⟨some 0x9000, false⟩).toOption.isNone) &&
        decide (w.HandsOut ⟨some 0x9000, false⟩ 48)) = true := by
    decide +kernel
  obtain ⟨w, hw, hcond⟩ := (Option.any_eq_true ..).mp hany
  rw [Bool.and_eq_true, decide_eq_true_eq] at hcond
  obtain ⟨b, hb, hblock⟩ := (Option.any_eq_true ..).mp hcond.1
  rw [Bool.and_eq_true, Option.isNone_iff_eq_none] at hblock
  have hstores : EveryStep World.step World.MayStore .initial fullRun := by decide +kernel
  refine ⟨w, b, hw, hstores, hb, by simpa using hblock.1, hcond.2, ?_⟩
  rintro ⟨r, rt, hok⟩
  rw [hok] at hblock
  simp [Except.toOption] at hblock

end Redzone.Shadow
