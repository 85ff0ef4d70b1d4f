/-
  Shadow/ReportKind.lean --- the name that `__redzone_check` gives to a violation.

  The check looks the first byte of the access up in the allocation table, and falls
  back on the poison code of the first or the last byte.  The violation belongs to the
  owner of the first poisoned byte of the access.  The name is that of the owner exactly
  when the table lookup is made inside the extent of the block, or when one of the two
  bytes lies in a chunk that is guard as a whole: the chunk that the user bytes of a
  variable end in carries a count instead of a code.
-/
import Redzone.Shadow.CodesRun

set_option autoImplicit false

namespace Redzone.Shadow

open Redzone.Foundation

/-! ## Owners -/

/-- What a poisoned byte belongs to. -/
inductive Owner where
  | block (b : Block)
  | stackVar (v : StackVar)
  | internal (g : GlobalVar)
  | external (g : GlobalVar)

namespace Owner

def obj : Owner → Obj
  | block b => b.obj
  | stackVar v => v.obj
  | internal g => g.internalObj
  | external g => g.externalObj

def zone : Owner → ℤ
  | block _ => rzPoison
  | stackVar _ => stackRz
  | internal _ => globalRz
  | external _ => globalRz

/-- The owner exists. -/
def In (w : World) : Owner → Prop
  | block b => b ∈ w.rt.blocks
  | stackVar v => v ∈ w.stack
  | internal g => g ∈ w.internals
  | external g => g ∈ w.externals

/-- The kind of a violation of the owner. -/
def kind : Owner → String
  | block b => if b.freed then "use-after-free" else "heap-buffer-overflow"
  | stackVar _ => "stack-buffer-overflow"
  | internal _ => "global-buffer-overflow"
  | external _ => "global-buffer-overflow"

end Owner

/-- The byte lies in a chunk of the object in which no byte is a user byte. -/
def Obj.GuardChunk (o : Obj) (x : ℕ) : Prop :=
  o.region.Mem x ∧ ¬ (o.userLo ≤ x / 8 * 8 ∧ x / 8 * 8 < o.userHi)

instance (o : Obj) (x : ℕ) : Decidable (o.GuardChunk x) := inferInstanceAs (Decidable (_ ∧ _))

/-- The check reads what names the owner: the first byte in the extent of the block, or
the first or the last byte in a chunk with the code of the variable. -/
def Owner.Named : Owner → ℕ → ℕ → Prop
  | .block b, a, _ => b.realBase ≤ a ∧ a < b.realBase + b.totalSize
  | o, a, last => o.obj.GuardChunk a ∨ o.obj.GuardChunk last

/-- `x` is the first poisoned byte of the access. -/
def FirstPoisoned (sh : ShadowMap) (a size x : ℕ) : Prop :=
  ∃ i < size, (a + i) % wordSize = x ∧ bytePoisoned sh x = true ∧
    ∀ j < i, bytePoisoned sh ((a + j) % wordSize) = false

section Owners

variable {w : World} {o : Owner} {z z' : Zoned} {x a size : ℕ} {b : Block}

theorem Owner.mem_zoned (h : o.In w) : (⟨o.obj, o.zone⟩ : Zoned) ∈ w.zoned := by
  simp only [World.zoned, List.mem_append, List.mem_map]
  cases o with
  | block b => exact Or.inl ⟨b, h, rfl⟩
  | stackVar v => exact Or.inr (Or.inl ⟨v, h, rfl⟩)
  | internal g => exact Or.inr (Or.inr (Or.inl ⟨g, h, rfl⟩))
  | external g => exact Or.inr (Or.inr (Or.inr ⟨g, h, rfl⟩))

theorem World.mem_objs_of_zoned (h : z ∈ w.zoned) : z.obj ∈ w.objs := by
  rw [← World.zoned_obj]
  exact List.mem_map_of_mem h

/-- A byte has one owner. -/
theorem World.Painted.eq_of_mem (h : w.Painted) (hz : z ∈ w.zoned) (hz' : z' ∈ w.zoned)
    (hx : z.tile.Mem x) (hx' : z'.tile.Mem x) : z = z' := by
  by_contra hne
  have hpair := List.pairwise_map.mp h.tiling.disjoint
  have hsymm : Std.Symm fun z z' : Zoned => z.tile.Disjoint z'.tile := ⟨fun _ _ hd => hd.symm⟩
  exact (hpair.forall hz hz' hne).not_mem hx hx'

end Owners

/-! ## The owner of the first poisoned byte -/

section First

variable {w : World} {o : Owner} {z : Zoned} {x a size : ℕ}

/-- An access that starts in an object has its first poisoned byte there: behind the user
bytes follows a guard. -/
theorem World.Inv.first_mem (h : w.Inv) (hsize : size ≤ 16)
    (hfirst : FirstPoisoned w.rt.shadow a size x) (hz : z ∈ w.zoned) (ha : z.tile.Mem a) :
    z.tile.Mem x := by
  obtain ⟨i, hi, rfl, hbad, hbefore⟩ := hfirst
  have ho := World.mem_objs_of_zoned hz
  have hok := h.ok z.obj ho
  have htop := hok.top_le
  have hguard := hok.guard
  obtain ⟨hlo, hhi⟩ := ha
  simp only [Zoned.tile, roundUp8, shadowLimit, redzoneSize] at hlo hhi htop hguard
  have hmod : ∀ j ≤ i, (a + j) % wordSize = a + j := fun j hj =>
    Nat.mod_eq_of_lt (by simp only [wordSize]; omega)
  rw [hmod i le_rfl] at hbad ⊢
  rcases Nat.eq_zero_or_pos i with rfl | hpos
  · exact ⟨hlo, hhi⟩
  -- the first byte is addressable, so it is a user byte
  have hok₀ := hbefore 0 hpos
  rw [hmod 0 hpos.le, Nat.add_zero] at hok₀
  have huser : z.obj.region.User a := by
    by_contra hnot
    rw [(h.poisoned_of_mem ho ⟨hlo, by simpa only [Obj.region, roundUp8] using hhi⟩).mpr hnot]
      at hok₀
    simp at hok₀
  obtain ⟨hlive, hulo, huhi⟩ := huser
  simp only [Obj.region] at hulo huhi
  refine ⟨by simp only [Zoned.tile]; omega, ?_⟩
  by_contra hout
  simp only [Zoned.tile, roundUp8] at hout
  -- otherwise the first byte of the guard would come before it
  have hbad' : bytePoisoned w.rt.shadow z.obj.userHi = true := by
    refine (h.poisoned_of_mem ho ⟨?_, ?_⟩).mpr fun hu => ?_
    · simp only [Obj.region]
      omega
    · simp only [Obj.region, roundUp8]
      omega
    · exact absurd hu.2.2 (Nat.lt_irrefl _)
  have hlt : z.obj.userHi - a < i := by omega
  have hok' := hbefore (z.obj.userHi - a) hlt
  rw [hmod _ hlt.le, Nat.add_sub_cancel' huhi.le, hbad'] at hok'
  simp at hok'

/-- The access starts in the owner of its first poisoned byte, or in no object. -/
theorem World.Inv.owner_of_first (h : w.Inv) (hp : w.Painted) (hsize : size ≤ 16)
    (hfirst : FirstPoisoned w.rt.shadow a size x) (ho : o.In w) (hx : o.obj.region.Mem x)
    (hz : z ∈ w.zoned) (ha : z.tile.Mem a) : z = ⟨o.obj, o.zone⟩ :=
  hp.eq_of_mem hz (Owner.mem_zoned ho) (h.first_mem hsize hfirst hz ha) hx

/-- The code of the first byte, if it is outside the owner. -/
theorem World.Inv.load_outside (h : w.Inv) (hp : w.Painted) (hsize : size ≤ 16)
    (hfirst : FirstPoisoned w.rt.shadow a size x) (ho : o.In w) (hx : o.obj.region.Mem x)
    (ha : ¬ o.obj.region.Mem a) : shadowLoad w.rt.shadow a = 0 := by
  refine hp.tiling.outside a fun t ht hmem => ?_
  obtain ⟨z, hz, rfl⟩ := List.mem_map.mp ht
  obtain rfl := h.owner_of_first hp hsize hfirst ho hx hz hmem
  exact ha hmem

/-- The last byte of an access is in the owner of its first poisoned byte, unless the
access starts in its guards. -/
theorem World.Inv.last_mem (h : w.Inv) (ha : a < wordSize) (hsize : size ≤ 16)
    (hfirst : FirstPoisoned w.rt.shadow a size x) (ho : o.In w) (hx : o.obj.region.Mem x)
    (hnot : ¬ o.obj.GuardChunk a) : o.obj.region.Mem ((a + size - 1) % wordSize) := by
  have hok := h.ok o.obj (World.mem_objs_of_zoned (Owner.mem_zoned ho))
  have hal := hok.lo_aligned
  have hual := hok.user_aligned
  have hule := hok.user_le
  have hle := hok.lo_le
  have hguard := hok.guard
  have htop := hok.top_le
  obtain ⟨i, hi, rfl, -, -⟩ := hfirst
  obtain ⟨hxlo, hxhi⟩ := hx
  unfold Obj.GuardChunk at hnot
  simp only [Region.Mem, Obj.region, roundUp8, redzoneSize, shadowLimit, wordSize] at *
  by_cases hain : o.obj.lo ≤ a ∧ a < (o.obj.top + 7) / 8 * 8
  · -- the chunk of the first byte has user bytes
    have hchunk : o.obj.userLo ≤ a / 8 * 8 ∧ a / 8 * 8 < o.obj.userHi := by
      by_contra hno
      exact hnot ⟨hain, hno⟩
    omega
  · omega

end First

/-! ## The reported kind -/

section Kind

variable {w : World} {o : Owner} {x a size : ℕ} {isWrite : Bool} {file : Option String}
  {line : ℤ} {r : Report}

/-- The kind of a report: by the table, or by the codes. -/
theorem redzoneCheck_kind (h : redzoneCheck w.rt a size isWrite file line = .error (.access r)) :
    (∃ b, findBlock w.rt a = some b ∧
      r.kind = if b.freed then "use-after-free" else "heap-buffer-overflow") ∨
    (findBlock w.rt a = none ∧ r.kind =
      poisonKind (shadowLoad w.rt.shadow a)
        (shadowLoad w.rt.shadow ((a + size - 1) % wordSize))) := by
  unfold redzoneCheck at h
  split at h
  · simp at h
  simp only at h
  split at h
  · simp at h
  split at h
  · rename_i b hfind
    obtain rfl := Abort.access.inj (Except.error.inj h)
    exact Or.inl ⟨b, hfind, rfl⟩
  · rename_i hfind
    obtain rfl := Abort.access.inj (Except.error.inj h)
    exact Or.inr ⟨hfind, rfl⟩

theorem poisonKind_ne (s1 s2 : ℤ) (freed : Bool) :
    poisonKind s1 s2 ≠ if freed then "use-after-free" else "heap-buffer-overflow" := by
  have hkinds : poisonKind s1 s2 = "global-buffer-overflow" ∨
      poisonKind s1 s2 = "stack-buffer-overflow" ∨ poisonKind s1 s2 = "buffer-overflow" := by
    unfold poisonKind
    simp only
    generalize (if s1 < 0 then s1 else if s2 < 0 then s2 else 0) = code
    split
    · exact Or.inl rfl
    split
    · exact Or.inr (Or.inl rfl)
    · exact Or.inr (Or.inr rfl)
  rcases hkinds with hk | hk | hk <;> rw [hk] <;> cases freed <;> decide

/-- A block is named exactly if the access starts in its extent. -/
theorem World.Inv.kind_block (h : w.Inv) (hp : w.Painted) (hsize : size ≤ 16) {b : Block}
    (hreport : redzoneCheck w.rt a size isWrite file line = .error (.access r))
    (hfirst : FirstPoisoned w.rt.shadow a size x) (hb : b ∈ w.rt.blocks)
    (hx : b.obj.region.Mem x) :
    r.kind = (Owner.block b).kind ↔ b.realBase ≤ a ∧ a < b.realBase + b.totalSize := by
  -- a block in whose extent the access starts is the owner
  have howner : ∀ b' ∈ w.rt.blocks, b'.realBase ≤ a ∧ a < b'.realBase + b'.totalSize →
      b'.obj = b.obj := by
    intro b' hb' hin
    have heq := h.owner_of_first (o := .block b) hp hsize hfirst hb hx
      (Owner.mem_zoned (o := .block b') hb') (Block.tile_mem hin _)
    exact congrArg Zoned.obj heq
  rcases redzoneCheck_kind hreport with ⟨b', hfind, hkind⟩ | ⟨hfind, hkind⟩
  · obtain ⟨hb', hin⟩ := h.findBlock_some hfind
    have heq := howner b' hb' hin
    have hlo : b'.realBase = b.realBase := congrArg Obj.lo heq
    have htop : b'.realBase + b'.totalSize = b.realBase + b.totalSize := congrArg Obj.top heq
    have hfreed : b'.freed = b.freed := by
      simpa [Block.obj] using congrArg Obj.live heq
    refine iff_of_true ?_ (by rw [← hlo, ← htop] at *; exact hin)
    rw [hkind, hfreed]
    rfl
  · refine iff_of_false ?_ (h.findBlock_none hfind hb)
    rw [hkind]
    exact poisonKind_ne _ _ _

/-- A variable is named exactly if the first or the last byte is in a guard chunk. -/
theorem World.Inv.kind_variable (h : w.Inv) (hp : w.Painted) (ha : a < wordSize)
    (hsize : size ≤ 16)
    (hreport : redzoneCheck w.rt a size isWrite file line = .error (.access r))
    (hfirst : FirstPoisoned w.rt.shadow a size x) (ho : o.In w) (hx : o.obj.region.Mem x)
    (hlive : o.obj.live = true) (hzone : o.zone = stackRz ∧ o.kind = "stack-buffer-overflow" ∨
      o.zone = globalRz ∧ o.kind = "global-buffer-overflow") :
    r.kind = o.kind ↔
      o.obj.GuardChunk a ∨ o.obj.GuardChunk ((a + size - 1) % wordSize) := by
  have hz := Owner.mem_zoned ho
  have hneg : o.zone < 0 := by
    rcases hzone with ⟨hz, -⟩ | ⟨hz, -⟩ <;> rw [hz] <;> decide
  have hnamed : ∀ s, poisonKind o.zone s = o.kind := by
    intro s
    rcases hzone with ⟨hz, hk⟩ | ⟨hz, hk⟩ <;> rw [hz, hk] <;> rfl
  -- the codes of the owner
  have hend : ∀ {y}, o.obj.region.Mem y → y < shadowLimit := by
    intro y hy
    have htop := (h.ok o.obj (World.mem_objs_of_zoned hz)).top_le
    have hhi := hy.2
    simp only [Obj.region, roundUp8, shadowLimit] at hhi htop ⊢
    omega
  have hguard : ∀ {y}, o.obj.GuardChunk y → shadowLoad w.rt.shadow y = o.zone := by
    intro y hy
    rw [Painted.load_of_mem hp hz hy.1 (hend hy.1), Zoned.code, if_neg hy.2]
  have huser : ∀ {y}, o.obj.region.Mem y → ¬ o.obj.GuardChunk y →
      0 ≤ shadowLoad w.rt.shadow y := by
    intro y hy hnot
    have hchunk : o.obj.userLo ≤ y / 8 * 8 ∧ y / 8 * 8 < o.obj.userHi := by
      by_contra hno
      exact hnot ⟨hy, hno⟩
    rw [Painted.load_of_mem hp hz hy (hend hy), Zoned.code, if_pos hchunk]
    simp only [hlive, if_true]
    split
    · exact le_rfl
    · exact Int.natCast_nonneg _
  -- the table has nothing at the first byte
  have hnone : findBlock w.rt a = none := by
    rw [Option.eq_none_iff_forall_ne_some]
    intro b hfind
    obtain ⟨hb, hin⟩ := h.findBlock_some hfind
    have heq := h.owner_of_first hp hsize hfirst ho hx (Owner.mem_zoned (o := .block b) hb)
      (Block.tile_mem hin _)
    have hzeq : rzPoison = o.zone := congrArg Zoned.zone heq
    rcases hzone with ⟨hz, -⟩ | ⟨hz, -⟩ <;> rw [hz] at hzeq <;> exact absurd hzeq (by decide)
  rcases redzoneCheck_kind hreport with ⟨b, hfind, -⟩ | ⟨-, hkind⟩
  · rw [hnone] at hfind
    simp at hfind
  rw [hkind]
  by_cases hga : o.obj.GuardChunk a
  · refine iff_of_true ?_ (Or.inl hga)
    rw [hguard hga, hnamed]
  have hlast := h.last_mem ha hsize hfirst ho hx hga
  have hs1 : 0 ≤ shadowLoad w.rt.shadow a := by
    by_cases hain : o.obj.region.Mem a
    · exact huser hain hga
    · exact (h.load_outside hp hsize hfirst ho hx hain).ge
  by_cases hgl : o.obj.GuardChunk ((a + size - 1) % wordSize)
  · refine iff_of_true ?_ (Or.inr hgl)
    rw [hguard hgl, ← hnamed 0]
    simp [poisonKind, hs1.not_gt, hneg]
  · have hs2 := huser hlast hgl
    refine iff_of_false ?_ (by rintro (hg | hg); exacts [hga hg, hgl hg])
    simp only [poisonKind, hs1.not_gt, hs2.not_gt, if_false]
    rcases hzone with ⟨-, hk⟩ | ⟨-, hk⟩ <;> rw [hk] <;> decide

/-- For every flagged access of at most 16 bytes, the reported kind is that of the owner of
its first poisoned byte exactly if the check reads what names the owner. -/
theorem reportKind_iff {ops : List Op} (hw : worldRun ops = some w) (ha : a < wordSize)
    (hsize : size ≤ 16)
    (hreport : redzoneCheck w.rt a size isWrite file line = .error (.access r))
    (hfirst : FirstPoisoned w.rt.shadow a size x) (ho : o.In w) (hx : o.obj.region.Mem x) :
    r.kind = o.kind ↔ o.Named a ((a + size - 1) % wordSize) := by
  have hinv := World.inv_of_run hw
  have hp := World.painted_of_run hw
  cases o with
  | block b => exact hinv.kind_block hp hsize hreport hfirst ho hx
  | stackVar v =>
      exact hinv.kind_variable (o := .stackVar v) hp ha hsize hreport hfirst ho hx rfl
        (Or.inl ⟨rfl, rfl⟩)
  | internal g =>
      exact hinv.kind_variable (o := .internal g) hp ha hsize hreport hfirst ho hx rfl
        (Or.inr ⟨rfl, rfl⟩)
  | external g =>
      exact hinv.kind_variable (o := .external g) hp ha hsize hreport hfirst ho hx rfl
        (Or.inr ⟨rfl, rfl⟩)

end Kind

theorem reportKind_iff_smallRun : ∃ w, worldRun smallRun = some w ∧
    (("buffer-overflow" : String) = (Owner.external ⟨0x5000, 3⟩).kind ↔
      (Owner.external ⟨0x5000, 3⟩).Named 0x5003 ((0x5003 + 1 - 1) % wordSize)) := by
  have hany : (worldRun smallRun).any (fun w : World =>
      decide (redzoneCheck w.rt 0x5003 1 true none 0 =
        .error (.access ⟨"buffer-overflow", 0x5003, 1, true, none, 0, none⟩)) &&
      bytePoisoned w.rt.shadow 0x5003 && decide (⟨0x5000, 3⟩ ∈ w.externals)) = true := by
    decide +kernel
  obtain ⟨w, hw, hstate⟩ := (Option.any_eq_true ..).mp hany
  simp only [Bool.and_eq_true, decide_eq_true_eq] at hstate
  obtain ⟨⟨hreport, hbad⟩, hmem⟩ := hstate
  exact ⟨w, hw, reportKind_iff (o := .external ⟨0x5000, 3⟩) hw (by decide) (by decide) hreport
    ⟨0, by decide, rfl, hbad, by simp⟩ hmem (by decide)⟩

/-- The byte after a global of 3 bytes is in the partial tail of the global; a store to it
is reported as a "buffer-overflow".  And a store of 8 bytes into the left red zone of a
live heap block that starts 4 bytes before it is reported as a "buffer-overflow", too. -/
theorem kind_of_partialTail : ∃ w, worldRun smallRun = some w ∧
    (∃ r, redzoneCheck w.rt 0x5003 1 true none 0 = .error (.access r) ∧
      FirstPoisoned w.rt.shadow 0x5003 1 0x5003 ∧ (Owner.external ⟨0x5000, 3⟩).In w ∧
      (Owner.external ⟨0x5000, 3⟩).obj.region.Mem 0x5003 ∧
      r.kind = "buffer-overflow" ∧ r.kind ≠ (Owner.external ⟨0x5000, 3⟩).kind) ∧
    ∃ r, ∃ b ∈ w.rt.blocks, redzoneCheck w.rt 0xFFC 8 true none 0 = .error (.access r) ∧
      FirstPoisoned w.rt.shadow 0xFFC 8 0x1000 ∧ b.obj.region.Mem 0x1000 ∧ b.freed = false ∧
      r.kind = "buffer-overflow" ∧ r.kind ≠ (Owner.block b).kind := by
  have hany : (worldRun smallRun).any (fun w : World =>
      decide (redzoneCheck w.rt 0x5003 1 true none 0 =
        .error (.access ⟨"buffer-overflow", 0x5003, 1, true, none, 0, none⟩)) &&
      bytePoisoned w.rt.shadow 0x5003 && decide (⟨0x5000, 3⟩ ∈ w.externals) &&
      decide (redzoneCheck w.rt 0xFFC 8 true none 0 =
        .error (.access ⟨"buffer-overflow", 0xFFC, 8, true, none, 0, none⟩)) &&
      bytePoisoned w.rt.shadow 0x1000 &&
      (List.range 4).all (fun j => !bytePoisoned w.rt.shadow ((0xFFC + j) % wordSize)) &&
      decide (⟨0x1000, 45, 0x1010, 13, false, none, 0⟩ ∈ w.rt.blocks)) = true := by
    decide +kernel
  obtain ⟨w, hw, hstate⟩ := (Option.any_eq_true ..).mp hany
  simp only [Bool.and_eq_true, decide_eq_true_eq, List.all_eq_true, List.mem_range,
    Bool.not_eq_true'] at hstate
  obtain ⟨⟨⟨⟨⟨⟨hreport, hbad⟩, hmem⟩, hreport'⟩, hbad'⟩, hbefore⟩, hmem'⟩ := hstate
  refine ⟨w, hw, ⟨_, hreport, ⟨0, by decide, rfl, hbad, by simp⟩, hmem, by decide, rfl, by decide⟩,
    _, _, hmem', hreport', ⟨4, by decide, rfl, hbad', hbefore⟩, by decide, rfl, rfl, by decide⟩

end Redzone.Shadow
