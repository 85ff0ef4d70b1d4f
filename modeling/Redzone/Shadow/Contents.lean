/-
  Shadow/Contents.lean --- memory keeps what the program has put there.

  Only a store, a copy or a fill of the program, or the pointer that `posix_memalign`
  delivers, writes to the extent of a block that exists: an allocation writes to its own
  extent, which is disjoint from all others, and a free writes to no memory at all.  So
  the bytes of a block stay as they are over any run, also when the block has been freed,
  and the bytes that `calloc` has cleared are 0 until the program writes them.
-/
import Redzone.Shadow.Refinement

set_option autoImplicit false

namespace Redzone.Shadow

open Redzone.Foundation

/-- The bytes that the program writes itself by the request: where they start, and how many
they are. -/
def Request.target : Request → ℕ × ℕ
  | .heap (.posixMemalign memptr _ _ _ _ _) => (memptr, 8)
  | .memcpy dst _ n _ _ | .memmove dst _ n _ _ | .memset dst _ n _ _ => (dst, n)
  | .store a bytes _ _ => (a, bytes.length)
  | _ => (0, 0)

/-- The program does not write the byte. -/
def Request.Spares (r : Request) (x : ℕ) : Prop :=
  ¬ (r.target.1 ≤ x ∧ x < r.target.1 + r.target.2)

instance (r : Request) (x : ℕ) : Decidable (r.Spares x) := inferInstanceAs (Decidable (¬ _))

/-- The extent of a block. -/
def Block.extent (b : Block) : ℕ × ℕ := (b.realBase, b.realBase + b.totalSize)

section Effects

variable {s s' rt : Rt} {w w' : World} {b b' : Block} {c : HeapCall} {i align x : ℕ}
  {reply : Reply}

/-- A reply is a heap call that has succeeded. -/
theorem heapCall_of_reply (h : s.reply c = .ok (reply, s')) : s.heapCall c = .ok s' := by
  have hmap : ∀ {α : Type} {f : α → Reply} {r : Except Abort (α × Rt)},
      r.map (Prod.map f id) = .ok (reply, s') → r.map Prod.snd = .ok s' := by
    intro α f r hr
    cases r with
    | error e => simp [Except.map] at hr
    | ok p => rw [Except.map, Except.ok.injEq, Prod.map, Prod.mk.injEq] at hr
              exact congrArg Except.ok hr.2
  cases c with
  | malloc size file line sys => exact hmap h
  | alignedAlloc alignment size file line sys => exact hmap h
  | posixMemalign memptr alignment size file line sys => exact hmap h
  | calloc nmemb size file line sys => exact hmap h
  | realloc ptr size file line sys => exact hmap h
  | free ptr =>
      simp only [Rt.reply] at h
      cases hf : redzoneFree s ptr with
      | error e => simp [hf, Except.map] at h
      | ok s₁ =>
          rw [hf, Except.map, Except.ok.injEq, Prod.mk.injEq] at h
          simp only [Rt.heapCall, hf, h.2]

/-- Entries of the table have disjoint extents. -/
theorem World.Inv.extents_disjoint (h : w.Inv) :
    (w.rt.blocks.map Block.extent).Pairwise fun e e' => e.2 ≤ e'.1 ∨ e'.2 ≤ e.1 := by
  have hall := List.pairwise_map.mp h.tiled.disjoint
  rw [World.objs_eq, List.pairwise_append, List.pairwise_map] at hall
  refine List.pairwise_map.mpr (hall.1.imp fun hd => ?_)
  simp only [Region.Disjoint, Block.obj, Obj.region, roundUp8] at hd
  simp only [Block.extent]
  omega

/-- A block that has been added lies apart from the ones that were there. -/
theorem World.Inv.apart_of_push {es : List (ℕ × ℕ)} {e : ℕ × ℕ} (h : w.Inv)
    (hpush : w.rt.blocks.map Block.extent = es ++ [e]) {e' : ℕ × ℕ} (he' : e' ∈ es) :
    e'.2 ≤ e.1 ∨ e.2 ≤ e'.1 := by
  have hpair := h.extents_disjoint
  rw [hpush, List.pairwise_append] at hpair
  exact hpair.2.2 e' he' e (by simp)

/-- An allocation writes to its own extent, and where the pointer is delivered. -/
theorem Allocated.mem_eq {out : List ℕ} (h : Allocated s s' b align out)
    (hroom : b.realBase + redzoneSize ≤ b.userAddr)
    (hin : b.userAddr + b.userSize ≤ b.realBase + b.totalSize)
    (hx : ¬ (b.realBase ≤ x ∧ x < b.realBase + b.totalSize)) (hout : x ∉ out) :
    s'.mem x = s.mem x := by
  simp only [redzoneSize] at hroom
  rw [h.mem x (by omega) hout, store64_of_out (by omega),
    store64_of_out (by simp only [headerSize]; omega)]

end Effects

/-! ## One request -/

section Requests

variable {w w' : World} {t t' : Store} {r : Request} {c : HeapCall} {reply : Reply} {x : ℕ}
  {e : ℕ × ℕ}

/-- What is known before and after a request that has been served. -/
structure Passed (w w' : World) : Prop where
  before : w.Intact
  after : w'.Intact

/-- The table keeps its extents, and may get another one. -/
theorem Passed.heap (h : Passed w w') (hserve : w.serve (.heap c) = .ok (reply, w'))
    (he : e ∈ w.rt.blocks.map Block.extent) :
    e ∈ w'.rt.blocks.map Block.extent ∧
      ∀ x, e.1 ≤ x → x < e.2 → x ∉ c.out → w'.rt.mem x = w.rt.mem x := by
  obtain ⟨rt, hreply, rfl⟩ : ∃ rt, w.rt.reply c = .ok (reply, rt) ∧ w' = { w with rt := rt } := by
    simp only [World.serve] at hserve
    cases hr : w.rt.reply c with
    | error e => simp [hr, Except.map] at hserve
    | ok p =>
        rw [hr, Except.map, Except.ok.injEq, Prod.map, Prod.mk.injEq] at hserve
        exact ⟨p.2, by rw [← hserve.1]; rfl, hserve.2.symm⟩
  -- the layout of a block of the new table
  have hlayout : ∀ b ∈ rt.blocks, b.realBase + redzoneSize ≤ b.userAddr ∧
      b.userAddr + b.userSize ≤ b.realBase + b.totalSize := by
    intro b hb
    have hok := h.after.inv.ok b.obj (World.mem_objs.mpr (Or.inl ⟨b, hb, rfl⟩))
    have hguard := hok.guard
    simp only [Block.obj, redzoneSize] at hguard
    exact ⟨(h.after.roomy b hb).1, by omega⟩
  have hapart : ∀ {b : Block}, rt.blocks.map Block.extent =
      w.rt.blocks.map Block.extent ++ [b.extent] → e.2 ≤ b.extent.1 ∨ b.extent.2 ≤ e.1 :=
    fun hpush => h.after.inv.apart_of_push hpush he
  rcases heapCall_ok (heapCall_of_reply hreply) with rfl | ⟨b, align, halloc⟩ | ⟨i, b, hfreed⟩ |
    ⟨s₁, b, align, i, b', halloc, hfreed⟩
  · exact ⟨he, fun _ _ _ _ => rfl⟩
  · have hpush : rt.blocks.map Block.extent =
        w.rt.blocks.map Block.extent ++ [b.extent] := by
      rw [halloc.effect.blocks, List.map_append, List.map_singleton]
    have hd := hapart hpush
    obtain ⟨hroom, hin⟩ := hlayout b (by simp [halloc.effect.blocks])
    simp only [Block.extent] at hd
    refine ⟨by rw [hpush]; exact List.mem_append_left _ he, fun x hlo hhi hout => ?_⟩
    exact halloc.mem_eq hroom hin (by omega) hout
  · refine ⟨by rw [hfreed.effect.map_eq Block.extent fun _ => rfl]; exact he, fun x _ _ _ => ?_⟩
    exact congrFun hfreed.mem x
  · have hmap := hfreed.effect.map_eq Block.extent fun _ => rfl
    have hpush : rt.blocks.map Block.extent =
        w.rt.blocks.map Block.extent ++ [b.extent] := by
      rw [hmap, halloc.effect.blocks, List.map_append, List.map_singleton]
    have hd := hapart hpush
    -- the entry of the new block, which may have been marked
    obtain ⟨b'', hb'', hsame⟩ : ∃ b'' ∈ rt.blocks,
        (b''.realBase, b''.totalSize, b''.userAddr, b''.userSize) =
          (b.realBase, b.totalSize, b.userAddr, b.userSize) := by
      have hplaces := hfreed.effect.map_eq
        (fun b => (b.realBase, b.totalSize, b.userAddr, b.userSize)) fun _ => rfl
      have hmem : (b.realBase, b.totalSize, b.userAddr, b.userSize) ∈
          rt.blocks.map fun b => (b.realBase, b.totalSize, b.userAddr, b.userSize) := by
        rw [hplaces, halloc.effect.blocks]
        exact List.mem_map_of_mem (by simp)
      obtain ⟨b'', hb'', hsame⟩ := List.mem_map.mp hmem
      exact ⟨b'', hb'', hsame⟩
    simp only [Prod.mk.injEq] at hsame
    obtain ⟨hbase, htotal, huser, hsize⟩ := hsame
    obtain ⟨hroom, hin⟩ := hlayout b'' hb''
    rw [hbase, huser] at hroom
    rw [hbase, htotal, huser, hsize] at hin
    simp only [Block.extent] at hd
    refine ⟨by rw [hpush]; exact List.mem_append_left _ he, fun x hlo hhi _ => ?_⟩
    rw [hfreed.mem]
    exact halloc.mem_eq hroom hin (by omega) (by simp)

/-- A request keeps the extents of the blocks, and what is in them where it spares it. -/
theorem Passed.keeps (h : Passed w w') (hserve : w.serve r = .ok (reply, w'))
    (he : e ∈ w.rt.blocks.map Block.extent) :
    e ∈ w'.rt.blocks.map Block.extent ∧
      ∀ x, e.1 ≤ x → x < e.2 → r.Spares x → w'.rt.mem x = w.rt.mem x := by
  cases r with
  | heap c =>
      obtain ⟨hext, hmem⟩ := h.heap hserve he
      refine ⟨hext, fun x hlo hhi hspares => hmem x hlo hhi fun hout => hspares ?_⟩
      cases c with
      | posixMemalign memptr alignment size file line sys => exact List.mem_range'_1.mp hout
      | malloc | alignedAlloc | calloc | realloc | free => simp [HeapCall.out] at hout
  | owns ptr | usableSize ptr | stackEnter v | stackLeave v | globalRegister g
  | globalRegisterRight g =>
      obtain ⟨-, rfl⟩ := Prod.mk.inj (Except.ok.inj hserve)
      exact ⟨he, fun _ _ _ _ => rfl⟩
  | check a size isWrite file line | load a n file line =>
      simp only [World.serve, bind, Except.bind] at hserve
      split at hserve
      · simp at hserve
      · obtain ⟨-, rfl⟩ := Prod.mk.inj (Except.ok.inj hserve)
        exact ⟨he, fun _ _ _ _ => rfl⟩
  | store a bytes file line =>
      simp only [World.serve, bind, Except.bind] at hserve
      split at hserve
      · simp at hserve
      · obtain ⟨-, rfl⟩ := Prod.mk.inj (Except.ok.inj hserve)
        exact ⟨he, fun x _ _ hspares => if_neg hspares⟩
  | memcpy dst src n file line | memmove dst src n file line =>
      simp only [World.serve, redzoneMemcpy, redzoneMemmove, bind, Except.bind] at hserve
      split at hserve
      · simp [Except.map] at hserve
      · split at hserve
        · simp [Except.map] at hserve
        · obtain ⟨-, rfl⟩ := Prod.mk.inj (Except.ok.inj hserve)
          exact ⟨he, fun x _ _ hspares => if_neg hspares⟩
  | memset dst c n file line =>
      simp only [World.serve, redzoneMemset, bind, Except.bind] at hserve
      split at hserve
      · simp [Except.map] at hserve
      · obtain ⟨-, rfl⟩ := Prod.mk.inj (Except.ok.inj hserve)
        exact ⟨he, fun x _ _ hspares => if_neg hspares⟩

end Requests

/-! ## Runs -/

section Runs

variable {w w₁ w' : World} {t : Store} {reqs before later : List Request} {e : ℕ × ℕ} {x : ℕ}

/-- The requests that follow a run keep what they spare. -/
theorem Represents.keeps (h : Represents w t)
    (hallowed : EveryRequest Store.serve Store.Allowed t reqs)
    (hw : served World.serve w reqs = some w') (he : e ∈ w.rt.blocks.map Block.extent)
    (hlo : e.1 ≤ x) (hhi : x < e.2) (hspares : ∀ r ∈ reqs, r.Spares x) :
    w'.rt.mem x = w.rt.mem x := by
  induction reqs generalizing w t with
  | nil =>
      obtain rfl : w = w' := Option.some.inj hw
      rfl
  | cons r reqs ih =>
      have hstep := runtime_refines w t r h hallowed.1
      generalize hs : w.serve r = answer at hstep
      generalize hspec : t.serve r = reply at hstep
      cases hstep with
      | stop x => simp [served, hs] at hw
      | @go a m u hm =>
          rw [served_cons_ok hs] at hw
          obtain ⟨hext, hmem⟩ := Passed.keeps ⟨h.intact, hm.intact⟩ hs he
          have hrest := ih hm (hallowed.tail hspec) hw hext
            fun r' hr' => hspares r' (List.mem_cons_of_mem _ hr')
          exact hrest.trans (hmem x hlo hhi (hspares r (by simp)))

/-- A client that has been served is in a state that the store represents. -/
theorem represents_of_served (hallowed : EveryRequest Store.serve Store.Allowed .initial
    (before ++ later)) (hw : served World.serve .initial before = some w) :
    ∃ t, Represents w t ∧ EveryRequest Store.serve Store.Allowed t later := by
  obtain ⟨t, ht, hrep⟩ := runtime_refines.served_spec represents_initial hallowed.left hw
  exact ⟨t, hrep, hallowed.right ht⟩

/-- The user bytes of a block are in its extent. -/
theorem World.Intact.mem_extent {b : Block} (h : w.Intact) (hb : b ∈ w.rt.blocks)
    (hx : b.userAddr ≤ x ∧ x < b.userAddr + b.userSize) :
    b.extent ∈ w.rt.blocks.map Block.extent ∧ b.extent.1 ≤ x ∧ x < b.extent.2 := by
  have hok := h.inv.ok b.obj (World.mem_objs.mpr (Or.inl ⟨b, hb, rfl⟩))
  have hle := hok.lo_le
  have hguard := hok.guard
  simp only [Block.obj, redzoneSize] at hle hguard
  exact ⟨List.mem_map_of_mem hb, hle.trans hx.1, by simp only [Block.extent]; omega⟩

/-- What is answered with a pointer goes on in the state after the call. -/
theorem served_pointer {c : HeapCall} {p : ℕ} (h : Represents w t)
    (hallowed : EveryRequest Store.serve Store.Allowed t (.heap c :: later))
    (hw : served World.serve w (.heap c :: later) = some w')
    (hp : w.serve (.heap c) = .ok (.pointer (some p), w₁)) :
    served World.serve w₁ later = some w' ∧ ∃ t₁, Represents w₁ t₁ ∧
      EveryRequest Store.serve Store.Allowed t₁ later := by
  rw [served_cons_ok hp] at hw
  have hstep := runtime_refines w t (.heap c) h hallowed.1
  rw [hp] at hstep
  generalize hspec : t.serve (.heap c) = reply at hstep
  cases hstep with
  | go a h₁ => exact ⟨hw, _, h₁, hallowed.tail hspec⟩

/-- `__redzone_calloc` clears the bytes of its block. -/
theorem serve_calloc {nmemb size p : ℕ} {file : Option String} {line : ℤ} {sys : Sys}
    (hp : w.serve (.heap (.calloc nmemb size file line sys)) = .ok (.pointer (some p), w₁)) :
    ∃ b ∈ w₁.rt.blocks, b.userAddr = p ∧ b.userSize = nmemb * size ∧
      ∀ x, p ≤ x → x < p + nmemb * size → w₁.rt.mem x = 0 := by
  simp only [World.serve, Rt.reply, redzoneCalloc] at hp
  split at hp
  · simp [Except.map] at hp
  cases hm : redzoneMalloc w.rt (nmemb * size) file line sys with
  | error e => simp [hm, Except.map] at hp
  | ok r =>
      obtain ⟨q, rt⟩ := r
      cases q with
      | none => simp [hm, Except.map] at hp
      | some q =>
          obtain ⟨b, hq, hsize, halloc⟩ := (redzoneMalloc_ok hm).resolve_left fun h => by simp at h
          simp only [hm, Except.map, Prod.map, id, Except.ok.injEq, Prod.mk.injEq,
            Reply.pointer.injEq, Option.some.injEq] at hp
          obtain ⟨rfl, rfl⟩ := hp
          obtain rfl := Option.some.inj hq
          refine ⟨b, by simp [halloc.effect.blocks], rfl, hsize, fun x hlo hhi => ?_⟩
          exact if_pos ⟨hlo, hhi⟩

/-- `__redzone_realloc` of a live block carries its bytes over. -/
theorem serve_realloc {b : Block} {size np : ℕ} {file : Option String} {line : ℤ} {sys : Sys}
    (h : Represents w t) (hsupplied : t.Supplied (.realloc b.userAddr size file line sys))
    (hb : b ∈ w.rt.blocks) (hlive : b.freed = false)
    (hp : w.serve (.heap (.realloc b.userAddr size file line sys)) =
      .ok (.pointer (some np), w₁)) :
    ∃ b' ∈ w₁.rt.blocks, b'.userAddr = np ∧ b'.userSize = size ∧
      ∀ k < min b.userSize size, w₁.rt.mem (np + k) = w.rt.mem (b.userAddr + k) := by
  obtain ⟨rt, hok, rfl⟩ : ∃ rt, redzoneRealloc w.rt b.userAddr size file line sys =
      .ok (some np, rt) ∧ w₁ = { w with rt := rt } := by
    simp only [World.serve, Rt.reply] at hp
    cases hr : redzoneRealloc w.rt b.userAddr size file line sys with
    | error e => simp [hr, Except.map] at hp
    | ok r =>
        obtain ⟨q, rt⟩ := r
        simp only [hr, Except.map, Prod.map, id, Except.ok.injEq, Prod.mk.injEq,
          Reply.pointer.injEq] at hp
        exact ⟨rt, by rw [hp.1], hp.2.symm⟩
  have hne := h.intact.userAddr_ne hb
  rcases Nat.eq_zero_or_pos size with rfl | hpos
  · -- that is a free
    unfold redzoneRealloc at hok
    rw [if_neg hne, if_pos rfl] at hok
    cases hf : redzoneFree w.rt b.userAddr with
    | error e => simp [hf] at hok
    | ok s => simp [hf] at hok
  have hfresh : w.HandsOut sys (size + 2 * redzoneSize) := by
    intro base hbase
    have hgrants : size ≤ sizeMax - 2 * redzoneSize := by
      rw [redzoneRealloc_eq hne hpos.ne'] at hok
      cases hm : redzoneMalloc w.rt size file line sys with
      | error e => simp [hm] at hok
      | ok r =>
          obtain ⟨q, s⟩ := r
          cases q with
          | none => simp [hm] at hok
          | some q => exact (redzoneMalloc_isSome.mp ⟨q, s, hm⟩).1
    refine h.fresh (hsupplied (size, redzoneSize, sys) ?_ base hbase ?_)
    · exact if_neg fun hboth => hpos.ne' hboth.2
    · have hslack : slackOf redzoneSize = 0 := by decide
      simp only [hslack, sizeMax, redzoneSize, wordSize] at hgrants ⊢
      omega
  obtain ⟨i, hi⟩ := List.mem_iff_getElem?.mp hb
  have hreturns : Returns w.rt sys (fun r rt => (r = none ∧ rt = w.rt) ∨
      ∃ b', r = some b'.userAddr ∧ w.Resized rt i b b' size)
      (redzoneRealloc w.rt b.userAddr size file line sys) :=
    h.intact.realloc_live hi hlive hpos hfresh
  rw [hok] at hreturns
  rcases hreturns with ⟨hnone, -⟩ | ⟨b', hnp, hres⟩
  · simp at hnone
  · obtain rfl := Option.some.inj hnp
    refine ⟨b', ?_, rfl, hres.size_eq, hres.carried⟩
    rw [hres.blocks]
    exact List.mem_append_right _ (List.mem_singleton_self b')

/-- Over every run the bytes in the extents of the blocks stay as they are, whether the
blocks are live or freed, unless the program writes them itself; what `calloc` has
returned reads 0, and what `realloc` has returned reads as the old block did. -/
theorem block_data_kept (before later : List Request)
    (hallowed : EveryRequest Store.serve Store.Allowed .initial (before ++ later))
    (hw : served World.serve .initial before = some w)
    (hw' : served World.serve w later = some w') :
    (∀ b ∈ w.rt.blocks, ∀ x, b.realBase ≤ x → x < b.realBase + b.totalSize →
      (∀ r ∈ later, r.Spares x) → w'.rt.mem x = w.rt.mem x) ∧
    (∀ nmemb size file line sys rest p w₁,
      later = .heap (.calloc nmemb size file line sys) :: rest →
      w.serve (.heap (.calloc nmemb size file line sys)) = .ok (.pointer (some p), w₁) →
      ∀ x, p ≤ x → x < p + nmemb * size → (∀ r ∈ rest, r.Spares x) → w'.rt.mem x = 0) ∧
    ∀ b ∈ w.rt.blocks, b.freed = false → ∀ size file line sys rest np w₁,
      later = .heap (.realloc b.userAddr size file line sys) :: rest →
      w.serve (.heap (.realloc b.userAddr size file line sys)) = .ok (.pointer (some np), w₁) →
      ∀ k < min b.userSize size, (∀ r ∈ rest, r.Spares (np + k)) →
        w'.rt.mem (np + k) = w.rt.mem (b.userAddr + k) := by
  obtain ⟨t, hrep, hlater⟩ := represents_of_served hallowed hw
  refine ⟨?_, ?_, ?_⟩
  · intro b hb x hlo hhi hspares
    exact hrep.keeps hlater hw' (List.mem_map_of_mem (f := Block.extent) hb) hlo hhi hspares
  · rintro nmemb size file line sys rest p w₁ rfl hp x hlo hhi hspares
    obtain ⟨hrest, t₁, h₁, hallowed₁⟩ := served_pointer hrep hlater hw' hp
    obtain ⟨b, hb, rfl, hsize, hzero⟩ := serve_calloc hp
    obtain ⟨hext, hin⟩ := h₁.intact.mem_extent hb ⟨hlo, by omega⟩
    rw [h₁.keeps hallowed₁ hrest hext hin.1 hin.2 hspares, hzero x hlo hhi]
  · rintro b hb hlive size file line sys rest np w₁ rfl hp k hk hspares
    obtain ⟨hrest, t₁, h₁, hallowed₁⟩ := served_pointer hrep hlater hw' hp
    obtain ⟨b', hb', rfl, hsize, hsame⟩ := serve_realloc hrep hlater.1.2.1 hb hlive hp
    obtain ⟨hext, hin⟩ := h₁.intact.mem_extent hb' ⟨Nat.le_add_right _ k, by omega⟩
    rw [h₁.keeps hallowed₁ hrest hext hin.1 hin.2 hspares, hsame k hk]

end Runs

/-- After a `calloc` and a store, the block is resized and freed. -/
def keepRun : List Request :=
  [.heap (.calloc 3 8 none 0 ⟨some 0x1000, true⟩), .store 0x1012 [7, 9] none 3]

def keepRunLater : List Request :=
  [.heap (.realloc 0x1010 40 none 0 ⟨some 0x2000, true⟩), .store 0x2018 [5] none 4,
    .heap (.free 0x2010)]

theorem keepRun_data : ∃ w w', served World.serve .initial keepRun = some w ∧
    served World.serve w keepRunLater = some w' ∧ w'.rt.mem 0x2013 = w.rt.mem 0x1013 ∧
    w'.rt.mem 0x1013 = w.rt.mem 0x1013 := by
  have hany : ((served World.serve .initial keepRun).any fun w =>
      decide (⟨0x1000, 56, 0x1010, 24, false, none, 0⟩ ∈ w.rt.blocks) &&
        (served World.serve w keepRunLater).isSome &&
        decide ((w.serve (.heap (.realloc 0x1010 40 none 0 ⟨some 0x2000, true⟩))).map Prod.fst =
          .ok (.pointer (some 0x2010)))) = true := by decide +kernel
  obtain ⟨w, hw, hcond⟩ := (Option.any_eq_true ..).mp hany
  rw [Bool.and_eq_true, Bool.and_eq_true, decide_eq_true_eq, decide_eq_true_eq] at hcond
  obtain ⟨⟨hb, hlater⟩, hreply⟩ := hcond
  obtain ⟨w', hw'⟩ := Option.isSome_iff_exists.mp hlater
  obtain ⟨hkept, -, hcarried⟩ := block_data_kept keepRun keepRunLater (by decide +kernel) hw hw'
  refine ⟨w, w', hw, hw', ?_, hkept _ hb 0x1013 (by decide) (by decide) (by decide)⟩
  cases hserve : w.serve (.heap (.realloc 0x1010 40 none 0 ⟨some 0x2000, true⟩)) with
  | error e => simp [hserve, Except.map] at hreply
  | ok r =>
      obtain ⟨reply, w₁⟩ := r
      simp only [hserve, Except.map, Except.ok.injEq] at hreply
      subst hreply
      exact hcarried _ hb rfl 40 none 0 _ _ _ w₁ rfl hserve 3 (by decide) (by decide)

end Redzone.Shadow
