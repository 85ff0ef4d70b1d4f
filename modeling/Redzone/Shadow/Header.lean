/-
  Shadow/Header.lean --- the headers in the left red zones.

  `rz_allocate` stores the index of a block right below its user region, in application
  memory.  The header is trusted by `block_from_user_ptr`, so it has to stay intact: its
  16 bytes are poisoned for good, and neither the program, which stores to addressable
  bytes only, nor the runtime, which stores to headers and user bytes of new blocks, ever
  writes them again.

  Headers of blocks beyond `SHADOW_LIMIT` are not protected, and are never read.
-/
import Redzone.Shadow.CodesRun

set_option autoImplicit false

namespace Redzone.Shadow

open Redzone.Foundation

/-! ## Loads and stores of words -/

section Words

variable {mem mem' : Bytes} {a a' v x : ℕ}

theorem load64_congr (mem : Bytes) (a : ℕ) (h : ∀ x, a ≤ x → x < a + 8 → mem' x = mem x) :
    load64 mem' a = load64 mem a := by
  unfold load64
  congr 1
  refine List.map_congr_left fun i hi => ?_
  have hlt := List.mem_range.mp hi
  rw [h (a + i) (by omega) (by omega)]

theorem store64_of_out (h : ¬ (a ≤ x ∧ x < a + 8)) : store64 mem a v x = mem x := if_neg h

/-- The low `n` bytes of a number, put together. -/
theorem sum_bytes (v n : ℕ) :
    ((List.range n).map fun i => v / 256 ^ i % 256 * 256 ^ i).sum = v % 256 ^ n := by
  induction n with
  | zero => simp [Nat.mod_one]
  | succ n ih =>
      rw [List.range_succ, List.map_append, List.sum_append, ih, Nat.mod_pow_succ]
      simp [Nat.mul_comm]

/-- A word is read as it was stored. -/
theorem load64_store64 (hv : v < wordSize) : load64 (store64 mem a v) a = v := by
  have hbyte : ∀ i ∈ List.range 8,
      (store64 mem a v (a + i)).toNat * 256 ^ i = v / 256 ^ i % 256 * 256 ^ i := by
    intro i hi
    have hlt := List.mem_range.mp hi
    have hin : a ≤ a + i ∧ a + i < a + 8 := by omega
    unfold store64
    rw [if_pos hin, Nat.add_sub_cancel_left, UInt8.toNat_ofNat']
  have hpow : 256 ^ 8 = wordSize := by norm_num
  unfold load64
  rw [List.map_congr_left hbyte, sum_bytes, hpow, Nat.mod_eq_of_lt hv]

end Words

/-! ## Headers -/

/-- The header below `u` is that of block `i`. -/
def HeaderAt (mem : Bytes) (u i : ℕ) : Prop :=
  load64 mem (u - headerSize) = headerMagic ∧ load64 mem (u - 8) = i

/-- There is a left red zone below every user region. -/
def Rt.Roomy (s : Rt) : Prop :=
  ∀ b ∈ s.blocks, b.realBase + redzoneSize ≤ b.userAddr ∧ b.userAddr % 16 = 0

/-- Every block that starts below `SHADOW_LIMIT` has its header. -/
def Rt.Headed (s : Rt) : Prop :=
  ∀ i b, s.blocks[i]? = some b → b.userAddr ≤ shadowLimit → HeaderAt s.mem b.userAddr i

/-- The program stores to addressable bytes only.  The pointer that `posix_memalign`
stores for it is such a store, made when the block has been allocated. -/
def World.MayStore (w : World) : Op → Prop
  | .store addr _ => bytePoisoned w.rt.shadow addr = false
  | .heap c =>
    match w.rt.heapCall c with
    | .ok rt => ∀ x ∈ c.out, bytePoisoned rt.shadow x = false
    | .error _ => True
  | _ => True

instance (w : World) : (op : Op) → Decidable (w.MayStore op)
  | .store _ _ => inferInstanceAs (Decidable (_ = false))
  | .heap c =>
    match h : w.rt.heapCall c with
    | .ok rt => decidable_of_iff (∀ x ∈ c.out, bytePoisoned rt.shadow x = false) (by
        simp only [World.MayStore, h])
    | .error _ => .isTrue (by simp only [World.MayStore, h])
  | .stackEnter _ | .stackLeave _ | .globalRegister _ | .globalRegisterRight _ => .isTrue trivial

section Headers

variable {mem mem' : Bytes} {u i : ℕ}

theorem HeaderAt.congr (h : HeaderAt mem u i) (hu : 16 ≤ u)
    (hsame : ∀ x, u - 16 ≤ x → x < u → mem' x = mem x) : HeaderAt mem' u i := by
  unfold HeaderAt headerSize at *
  rw [load64_congr mem (u - 16) fun x hlo hhi => hsame x hlo (by omega),
    load64_congr mem (u - 8) fun x hlo hhi => hsame x (by omega) (by omega)]
  exact h

/-- A header is read as it was stored. -/
theorem headerAt_store (mem : Bytes) (hu : 16 ≤ u) (hi : i < wordSize) :
    HeaderAt (store64 (store64 mem (u - headerSize) headerMagic) (u - 8) i) u i := by
  unfold headerSize
  refine ⟨?_, load64_store64 hi⟩
  rw [load64_congr (store64 mem (u - 16) headerMagic) (u - 16)]
  · exact load64_store64 (by decide)
  · intro x hlo hhi
    exact store64_of_out (by omega)

end Headers

/-! ## There is room for headers -/

section Room

variable {fresh : World → ℕ → ℕ → Prop} {w w' : World} {s rt : Rt} {b : Block} {i align : ℕ}

theorem Rt.Roomy.alloc (h : w.rt.Roomy) (hf : SoundFresh fresh)
    (heff : AllocEffect w.rt rt b align)
    (hfresh : fresh w b.realBase (b.realBase + b.totalSize)) : rt.Roomy := by
  obtain ⟨hleft, hual, -⟩ := heff.layout (hf.aligned hfresh) (hf.top_lt hfresh).le
  intro b' hb'
  rw [heff.blocks, List.mem_append, List.mem_singleton] at hb'
  rcases hb' with hb' | rfl
  · exact h b' hb'
  · exact ⟨hleft, hual⟩

/-- An entry of the table after a free is the one before it, up to the mark. -/
theorem FreeEffect.entry (h : FreeEffect s rt i b) {j : ℕ} {b' : Block}
    (hb' : rt.blocks[j]? = some b') :
    ∃ b₀ : Block, s.blocks[j]? = some b₀ ∧ b₀.realBase = b'.realBase ∧
      b₀.userAddr = b'.userAddr := by
  rw [h.blocks] at hb'
  by_cases hij : i = j
  · subst hij
    rw [List.getElem?_set_self (List.getElem?_eq_some_iff.mp h.found).1] at hb'
    obtain rfl := Option.some.inj hb'
    exact ⟨b, h.found, rfl, rfl⟩
  · rw [List.getElem?_set_ne hij] at hb'
    exact ⟨b', hb', rfl, rfl⟩

theorem Rt.Roomy.free (h : s.Roomy) (heff : FreeEffect s rt i b) : rt.Roomy := by
  intro b' hb'
  obtain ⟨j, hj⟩ := List.mem_iff_getElem?.mp hb'
  obtain ⟨b₀, hb₀, hbase, huser⟩ := heff.entry hj
  rw [← hbase, ← huser]
  exact h b₀ (List.mem_of_getElem? hb₀)

theorem Rt.Roomy.stepWith [∀ w lo top, Decidable (fresh w lo top)] (h : w.rt.Roomy)
    (hf : SoundFresh fresh) {op : Op} (hstep : w.stepWith fresh op = some w') : w'.rt.Roomy := by
  cases op with
  | heap c =>
      simp only [World.stepWith] at hstep
      split at hstep
      · simp at hstep
      · rename_i rt hcall
        split at hstep
        · rename_i hfresh
          obtain rfl := Option.some.inj hstep
          rcases heapCall_ok hcall with rfl | ⟨b, align, heff, -⟩ | ⟨i, b, heff, -⟩ |
            ⟨s₁, b, align, i, b', ⟨ha, -⟩, hfr, -⟩
          · exact h
          · exact h.alloc hf heff (hfresh b (by simp [heff.blocks]))
          · exact h.free heff
          · obtain ⟨b'', hmem, hbase, htotal⟩ := ha.fresh_of_free hfr
            have hb := hfresh b'' hmem
            rw [hbase, htotal] at hb
            exact (h.alloc hf ha hb).free hfr
        · simp at hstep
  | store addr byte =>
      obtain rfl := Option.some.inj hstep
      exact h
  | stackEnter v | stackLeave v | globalRegister v | globalRegisterRight v =>
      simp only [World.stepWith] at hstep
      split at hstep
      · obtain rfl := Option.some.inj hstep
        exact h
      · simp at hstep

/-- Codes and room, in every state that a run reaches. -/
theorem World.laidOut_of_run [∀ w lo top, Decidable (fresh w lo top)] (hf : SoundFresh fresh)
    {ops : List Op} (hrun : run (World.stepWith fresh) .initial ops = some w) :
    w.Painted ∧ w.rt.Roomy := by
  refine run_invariant (I := fun w => w.Painted ∧ w.rt.Roomy) ⟨painted_initial, ?_⟩ ?_ ops hrun
  · simp [Rt.Roomy, World.initial, Rt.initial]
  · intro m op m' hinv hstep
    exact ⟨hinv.1.stepWith hf hstep, hinv.2.stepWith hf hstep⟩

end Room

/-! ## Headers stay intact -/

section Intact

variable {fresh : World → ℕ → ℕ → Prop} {w w' : World} {rt : Rt} {b : Block} {i x : ℕ}

/-- The guards of a block are poisoned with the code of the heap. -/
theorem World.Painted.left_zone (h : w.Painted) (hb : b ∈ w.rt.blocks) (hlo : b.realBase ≤ x)
    (hhi : x < b.userAddr) (hlim : x < shadowLimit) : shadowLoad w.rt.shadow x = rzPoison := by
  have hz : (⟨b.obj, rzPoison⟩ : Zoned) ∈ w.zoned := by
    rw [World.zoned_eq]
    exact List.mem_append_left _ (List.mem_map_of_mem hb)
  have hlaid := h.laid _ hz
  have hle := hlaid.user_le
  have hguard := hlaid.guard
  simp only [Block.obj, redzoneSize] at hle hguard
  have hround : b.realBase + b.totalSize ≤ roundUp8 (b.realBase + b.totalSize) := by
    simp only [roundUp8]
    omega
  have hmem : (Zoned.tile ⟨b.obj, rzPoison⟩).Mem x :=
    ⟨hlo, lt_of_lt_of_le (by omega) hround⟩
  rw [Shadow.Painted.load_of_mem h hz hmem hlim]
  have hchunk : ¬ (b.userAddr ≤ x / 8 * 8 ∧ x / 8 * 8 < b.userAddr + b.userSize) := by omega
  exact if_neg hchunk

/-- The bytes of a header are poisoned. -/
theorem World.Painted.header_poisoned (h : w.Painted) (hr : w.rt.Roomy) (hb : b ∈ w.rt.blocks)
    (hlim : b.userAddr ≤ shadowLimit) (hlo : b.userAddr - 16 ≤ x) (hhi : x < b.userAddr) :
    bytePoisoned w.rt.shadow x = true := by
  have hroom := (hr b hb).1
  simp only [redzoneSize] at hroom
  have hload := h.left_zone hb (by omega) hhi (hhi.trans_le hlim)
  simp [bytePoisoned, hload]

/-- There are fewer blocks than addresses. -/
theorem World.Painted.length_le (h : w.Painted) : w.rt.blocks.length ≤ wordSize := by
  have hnodup : (w.zoned.map fun z => z.obj.lo).Nodup := by
    refine List.pairwise_map.mpr (List.Pairwise.imp_of_mem ?_
      (List.pairwise_map.mp h.tiling.disjoint))
    intro z z' hz hz' hdisj heq
    have hlaid := h.laid z hz
    have hlaid' := h.laid z' hz'
    have hle := hlaid.lo_le
    have hle' := hlaid'.lo_le
    have hule := hlaid.user_le
    have hule' := hlaid'.user_le
    have hguard := hlaid.guard
    have hguard' := hlaid'.guard
    simp only [Tile.Disjoint, Zoned.tile, roundUp8, redzoneSize] at hdisj hguard hguard'
    omega
  have hlt : ∀ a ∈ w.zoned.map (fun z => z.obj.lo), a < wordSize := by
    intro a ha
    obtain ⟨z, hz, rfl⟩ := List.mem_map.mp ha
    have hlaid := h.laid z hz
    have hle := hlaid.lo_le
    have hule := hlaid.user_le
    have hguard := hlaid.guard
    have htop := hlaid.top_lt
    omega
  have hcard : (w.zoned.map fun z => z.obj.lo).length ≤ wordSize := by
    rw [← List.toFinset_card_of_nodup hnodup, ← Finset.card_range wordSize]
    refine Finset.card_le_card fun a ha => ?_
    exact Finset.mem_range.mpr (hlt a (List.mem_toFinset.mp ha))
  refine le_trans ?_ hcard
  rw [List.length_map, World.zoned_eq, List.length_append, List.length_map]
  exact Nat.le_add_right _ _

/-- Memory may change at addressable bytes. -/
theorem World.Painted.headed_write (h : w.Painted) (hr : w.rt.Roomy) (hh : w.rt.Headed)
    {mem : Bytes} (hmem : ∀ x, bytePoisoned w.rt.shadow x = true → mem x = w.rt.mem x) :
    Rt.Headed { w.rt with mem := mem } := by
  intro i b hb hlim
  have hmemb := List.mem_of_getElem? hb
  have hroom := (hr b hmemb).1
  simp only [redzoneSize] at hroom
  refine (hh i b hb hlim).congr (by omega) fun x hlo hhi => ?_
  exact hmem x (h.header_poisoned hr hmemb hlim hlo hhi)

/-- An allocation writes the header of its block, and no other. -/
theorem World.Painted.headed_alloc (hh : w.rt.Headed) (hf : SoundFresh fresh) {align : ℕ}
    {out : List ℕ} (halloc : Allocated w.rt rt b align out)
    (hfresh : fresh w b.realBase (b.realBase + b.totalSize))
    (hp' : World.Painted { w with rt := rt }) (hr' : rt.Roomy)
    (hout : ∀ x ∈ out, bytePoisoned rt.shadow x = false) : rt.Headed := by
  have heff := halloc.effect
  -- the bytes of a header are no place where the program has a pointer stored
  have hpoisoned : ∀ b' ∈ rt.blocks, b'.userAddr ≤ shadowLimit → ∀ x, b'.userAddr - 16 ≤ x →
      x < b'.userAddr → x ∉ out := by
    intro b' hb' hlim x hlo hhi hx
    have hbad := hp'.header_poisoned hr' hb' hlim hlo hhi
    simp [hout x hx] at hbad
  intro j b' hb' hlim
  have hmem' := List.mem_of_getElem? hb'
  have hleft' := (hr' b' hmem').1
  have hleft := (hr' b (by simp [heff.blocks])).1
  have hguard := (heff.layout (hf.aligned hfresh) (hf.top_lt hfresh).le).2.2
  simp only [redzoneSize] at hleft hleft' hguard
  rw [heff.blocks] at hb'
  rcases Nat.lt_trichotomy j w.rt.blocks.length with hj | rfl | hj
  · -- an earlier block: its extent is disjoint from the new one
    rw [List.getElem?_append_left hj] at hb'
    have hold := List.mem_of_getElem? hb'
    refine (hh j b' hb' hlim).congr (by omega) fun x hlo hhi => ?_
    have hd := hf.disjoint hfresh b'.obj (World.mem_objs.mpr (Or.inl ⟨b', hold, rfl⟩))
    simp only [Block.obj] at hd
    have hz : (⟨b'.obj, rzPoison⟩ : Zoned) ∈ World.zoned { w with rt := rt } := by
      rw [World.zoned_eq]
      exact List.mem_append_left _ (List.mem_map_of_mem hmem')
    have hend := (hp'.laid _ hz).guard
    have hule := (hp'.laid _ hz).user_le
    simp only [Block.obj, redzoneSize] at hend hule
    rw [halloc.mem x (by omega) (hpoisoned b' hmem' hlim x hlo hhi),
      store64_of_out (by omega), store64_of_out (by simp only [headerSize]; omega)]
  · obtain rfl : b' = b := by
      simpa using hb'.symm
    have hlen := hp'.length_le
    simp only [heff.blocks, List.length_append, List.length_singleton] at hlen
    refine (headerAt_store w.rt.mem (by omega) (by omega)).congr (by omega) ?_
    intro x hlo hhi
    exact halloc.mem x (by omega) (hpoisoned b' hmem' hlim x hlo hhi)
  · rw [List.getElem?_eq_none (by simp; omega)] at hb'
    simp at hb'

/-- Freeing a block leaves the headers. -/
theorem headed_free {s : Rt} (hh : s.Headed) (hfreed : Freed s rt i b) : rt.Headed := by
  intro j b' hb' hlim
  obtain ⟨b₀, hb₀, -, huser⟩ := hfreed.effect.entry hb'
  rw [← huser] at hlim ⊢
  rw [hfreed.mem]
  exact hh j b₀ hb₀ hlim

theorem headed_initial : World.initial.rt.Headed := by
  intro i b hb
  simp [World.initial, Rt.initial] at hb

/-- A heap call keeps the headers. -/
theorem World.Painted.headed_heap (h : w.Painted) (hr : w.rt.Roomy) (hh : w.rt.Headed)
    (hf : SoundFresh fresh) {c : HeapCall} (hcall : w.rt.heapCall c = .ok rt)
    (hfresh : ∀ b ∈ rt.blocks.drop w.rt.blocks.length,
      fresh w b.realBase (b.realBase + b.totalSize))
    (hout : ∀ x ∈ c.out, bytePoisoned rt.shadow x = false) : rt.Headed := by
  rcases heapCall_ok hcall with rfl | ⟨b, align, halloc⟩ | ⟨i, b, hfreed⟩ |
    ⟨s₁, b, align, i, b', halloc, hfreed⟩
  · exact hh
  · have hb : fresh w b.realBase (b.realBase + b.totalSize) :=
      hfresh b (by simp [halloc.effect.blocks])
    exact headed_alloc hh hf halloc hb (h.alloc hf halloc.effect hb) (hr.alloc hf halloc.effect hb)
      hout
  · exact headed_free hh hfreed
  · obtain ⟨b'', hmem, hbase, htotal⟩ := halloc.effect.fresh_of_free hfreed.effect
    have hb := hfresh b'' hmem
    rw [hbase, htotal] at hb
    have hh₁ := headed_alloc hh hf halloc hb (h.alloc hf halloc.effect hb)
      (hr.alloc hf halloc.effect hb) (by simp)
    exact headed_free hh₁ hfreed

/-- Every step in which the program stores to addressable bytes keeps the headers. -/
theorem World.Painted.headed_step [∀ w lo top, Decidable (fresh w lo top)] (h : w.Painted)
    (hr : w.rt.Roomy) (hh : w.rt.Headed) (hf : SoundFresh fresh) {op : Op} (hmay : w.MayStore op)
    (hstep : w.stepWith fresh op = some w') : w'.rt.Headed := by
  cases op with
  | heap c =>
      simp only [World.stepWith] at hstep
      split at hstep
      · simp at hstep
      · rename_i rt hcall
        simp only [World.MayStore, hcall] at hmay
        split at hstep
        · rename_i hfresh
          obtain rfl := Option.some.inj hstep
          exact h.headed_heap hr hh hf hcall hfresh hmay
        · simp at hstep
  | store addr byte =>
      obtain rfl := Option.some.inj hstep
      refine h.headed_write hr hh fun x hx => ?_
      rw [Function.update_of_ne]
      rintro rfl
      simp only [World.MayStore] at hmay
      simp [hmay] at hx
  | stackEnter v | stackLeave v | globalRegister v | globalRegisterRight v =>
      simp only [World.stepWith] at hstep
      split at hstep
      · obtain rfl := Option.some.inj hstep
        exact hh
      · simp at hstep

/-- The headers of every state that a run reaches in which the program stores to
addressable bytes. -/
theorem World.headed_of_run [∀ w lo top, Decidable (fresh w lo top)] (hf : SoundFresh fresh)
    {ops : List Op} (hrun : run (World.stepWith fresh) .initial ops = some w)
    (hstores : EveryStep (World.stepWith fresh) World.MayStore .initial ops) :
    w.rt.Headed := by
  refine run_induction (P := fun _ w => w.rt.Headed) headed_initial ?_ ops hstores hrun
  intro es op m m' hm hmay hh hstep
  obtain ⟨hp, hr⟩ := World.laidOut_of_run hf hm
  exact hp.headed_step hr hh hf hmay hstep

/-- The header lookup finds exactly the blocks that start below `SHADOW_LIMIT` and have
their header. -/
theorem World.Painted.blockFromUserPtr_eq (h : w.Painted) (hr : w.rt.Roomy)
    (hb : w.rt.blocks[i]? = some b) :
    blockFromUserPtr w.rt b.userAddr = some i ↔
      b.userAddr ≤ shadowLimit ∧ HeaderAt w.rt.mem b.userAddr i := by
  have hmem := List.mem_of_getElem? hb
  obtain ⟨hroom, hal⟩ := hr b hmem
  simp only [redzoneSize] at hroom
  have hlt : i < w.rt.blocks.length := (List.getElem?_eq_some_iff.mp hb).1
  have hroomy : ¬ b.userAddr < headerSize := by
    simp only [headerSize]
    omega
  by_cases hlim : b.userAddr ≤ shadowLimit
  · have hload := h.left_zone hmem (x := b.userAddr - 8) (by omega) (by omega) (by omega)
    simp only [hlim, true_and]
    constructor
    · intro hfound
      obtain ⟨hmagic, hindex, -⟩ := blockFromUserPtr_some hfound
      exact ⟨hmagic, hindex⟩
    · rintro ⟨hmagic, hindex⟩
      have hok : ¬ (load64 w.rt.mem (b.userAddr - headerSize) ≠ headerMagic ∨
          load64 w.rt.mem (b.userAddr - 8) ≥ w.rt.blocks.length) := by
        rw [hmagic, hindex]
        simpa using hlt
      unfold blockFromUserPtr
      rw [if_neg hroomy, if_neg (by simpa using hload), if_neg hok, hindex, hb]
      simp
  · have hfar : shadowLimit ≤ b.userAddr - 8 := by
      simp only [shadowLimit] at hlim ⊢
      omega
    have hload : shadowLoad w.rt.shadow (b.userAddr - 8) ≠ rzPoison := by
      rw [shadowLoad_of_le hfar]
      decide
    unfold blockFromUserPtr
    rw [if_neg hroomy, if_pos hload]
    simp [hlim]

end Intact

end Redzone.Shadow
