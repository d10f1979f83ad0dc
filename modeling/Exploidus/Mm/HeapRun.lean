import Exploidus.Mm.HeapTiles

/-! The heap over whole runs of `kmalloc` and `kfree`. -/
namespace Exploidus.Mm
open FirstFit Function HeapSys Heap

/-- Addresses that can be a heap: above NULL, with room for a header and a block, and ending at an
address. -/
structure HeapRange (start size : ℕ) : Prop where
  low : 16 ≤ start
  room : headerSize < size
  high : start + size < 2 ^ 64

/-- The live allocations are the blocks in use. -/
structure Backed (live : List (ℕ × ℕ)) (start : ℕ) (bs : List Block) : Prop where
  nodup : (live.map Prod.fst).Nodup
  fits : ∀ x ∈ live, ∃ p k, BlockAt p start bs ⟨k, false⟩ ∧ x.1 = p + headerSize ∧ x.2 ≤ k
  all : ∀ p k, BlockAt p start bs ⟨k, false⟩ → ∃ x ∈ live, x.1 = p + headerSize

structure HeapOk (start size : ℕ) (s : HeapSys) (bs : List Block) : Prop where
  head : s.heap.head = start
  low : s.heap.start = start
  high : s.heap.stop = start + size
  tiles : Tiles s.heap.mem (start + size) start bs
  apart : Apart bs
  backed : Backed s.live start bs
  live : ∀ x ∈ s.live, x.1 ∈ s.given
  given : ∀ p ∈ s.given, start + headerSize ≤ p ∧ 16 ∣ p - start

section
variable {start size n ptr : ℕ} {s : HeapSys} {bs bs' : List Block}

theorem HeapRange.ne_nil {mem : ℕ → ℕ} (hr : HeapRange start size)
    (h : Tiles mem (start + size) start bs) : bs ≠ [] := by
  rintro rfl
  have hstop := h.stop_eq
  have hroom := hr.room
  simp only [span] at hstop
  omega

theorem Backed.cons {live : List (ℕ × ℕ)} (h : Backed live start bs) {p k : ℕ} (hn : n ≤ k)
    (hfresh : ∀ j, ¬ BlockAt p start bs ⟨j, false⟩)
    (hbs : ∀ q j, BlockAt q start bs' ⟨j, false⟩ ↔ q = p ∧ j = k ∨ BlockAt q start bs ⟨j, false⟩) :
    Backed ((p + headerSize, n) :: live) start bs' := by
  refine ⟨List.nodup_cons.mpr ⟨fun hmem => ?_, h.nodup⟩, fun x hx => ?_, fun q j hq => ?_⟩
  · obtain ⟨x, hx, hxp⟩ := List.mem_map.mp hmem
    obtain ⟨q, j, hq, h1, -⟩ := h.fits x hx
    obtain rfl : q = p := by omega
    exact hfresh j hq
  · rcases List.mem_cons.mp hx with rfl | hx
    · exact ⟨p, k, (hbs p k).mpr (.inl ⟨rfl, rfl⟩), rfl, hn⟩
    obtain ⟨q, j, hq, h1⟩ := h.fits x hx
    exact ⟨q, j, (hbs q j).mpr (.inr hq), h1⟩
  · rcases (hbs q j).mp hq with ⟨rfl, rfl⟩ | hq
    · exact ⟨_, List.mem_cons_self, rfl⟩
    obtain ⟨x, hx, h1⟩ := h.all q j hq
    exact ⟨x, List.mem_cons_of_mem _ hx, h1⟩

theorem Backed.filter {live : List (ℕ × ℕ)} (h : Backed live start bs) {p : ℕ}
    (hbs : ∀ q j, BlockAt q start bs' ⟨j, false⟩ ↔ q ≠ p ∧ BlockAt q start bs ⟨j, false⟩) :
    Backed (live.filter fun x => x.1 ≠ p + headerSize) start bs' := by
  refine ⟨h.nodup.sublist (List.filter_sublist.map _), fun x hx => ?_, fun q j hq => ?_⟩
  · obtain ⟨hx, hne⟩ := List.mem_filter.mp hx
    obtain ⟨q, j, hq, h1, h2⟩ := h.fits x hx
    have hne' : x.1 ≠ p + headerSize := by simpa using hne
    exact ⟨q, j, (hbs q j).mpr ⟨by omega, hq⟩, h1, h2⟩
  · obtain ⟨hne, hq⟩ := (hbs q j).mp hq
    obtain ⟨x, hx, h1⟩ := h.all q j hq
    exact ⟨x, List.mem_filter.mpr ⟨hx, decide_eq_true (by omega)⟩, h1⟩

/-- The size `kmalloc` looks for, without the wrap of 64 bits. -/
def roundUp (n : ℕ) : ℕ := (n + 15) / 16 * 16

theorem HeapSys.filter_live (hx : ∀ x ∈ s.live, x.1 ≠ ptr) :
    (s.live.filter fun x => decide (x.1 ≠ ptr)) = s.live :=
  List.filter_eq_self.mpr fun x h => decide_eq_true (hx x h)

section
variable (h : HeapOk start size s bs)
include h

theorem HeapOk.live_bounds {x : ℕ × ℕ} (hx : x ∈ s.live) :
    start + headerSize ≤ x.1 ∧ x.1 < start + size ∧ x.1 + x.2 ≤ start + size := by
  obtain ⟨p, k, hp, h1, h2⟩ := h.backed.fits x hx
  have hb := hp.bounds
  have hs := h.tiles.stop_eq
  have hpos := (h.tiles.header hp).2.1
  dsimp only at hb hpos
  omega

theorem HeapOk.setFree_other {hdr : ℕ} (hlo : start ≤ hdr)
    (hal : 16 ∣ hdr - start) (hunused : ∀ k, ¬ BlockAt hdr start bs ⟨k, false⟩)
    (hfree : s.heap.isFree hdr = false) :
    Tiles (s.heap.setFree hdr 1).mem (start + size) start bs := by
  refine h.tiles.store fun p c hp => ?_
  obtain ⟨⟨next, hh⟩, -, hdvd⟩ := h.tiles.header hp
  have hle := hp.bounds.1
  have hfree' : s.heap.mem (hdr + 16) % 256 = 0 := by simpa [isFree] using hfree
  have h1 : hdr + 16 ≠ p := by
    intro heq
    rw [heq, hh.magic] at hfree'
    exact absurd hfree' (by decide)
  have h2 : hdr ≠ p := by
    rintro rfl
    have hc : c.free = false := by rw [← isFree_of_header hh]; exact hfree
    refine hunused c.size ?_
    rwa [← hc]
  omega

theorem HeapOk.disjoint : s.live.Pairwise fun x y => x.1 + x.2 ≤ y.1 ∨ y.1 + y.2 ≤ x.1 := by
  have hnodup : s.live.Pairwise fun x y => x.1 ≠ y.1 := List.pairwise_map.mp h.backed.nodup
  refine hnodup.imp_of_mem fun {x y} hx hy hne => ?_
  obtain ⟨p, j, hp, hxp, hxk⟩ := h.backed.fits x hx
  obtain ⟨q, k, hq, hyq, hyk⟩ := h.backed.fits y hy
  have hH : headerSize = 32 := rfl
  have hsep := hp.apart hq
  dsimp only at hsep
  omega

section
variable (hr : HeapRange start size)
include hr

theorem HeapOk.entry_eq : entry start bs = start := by
  cases bs with
  | nil => exact absurd rfl (hr.ne_nil h.tiles)
  | cons b bs => rfl

theorem HeapOk.kmalloc_eq (hn : n ≠ 0) : (alloc headerSize minAlloc (roundUp n) start bs = none ∧
      s.heap.kmalloc n = (s.heap, 0)) ∨
    ∃ p bs' mem', alloc headerSize minAlloc (roundUp n) start bs = some (p, bs') ∧
      s.heap.kmalloc n = ({ s.heap with mem := mem' }, p + headerSize) ∧
      Tiles mem' (start + size) start bs' := by
  have hH : headerSize = 32 := rfl
  have hlow := hr.low
  have hhigh := hr.high
  have hspan := h.tiles.stop_eq
  have hdiff : (s.heap.stop + 2 ^ 64 - s.heap.start) % 2 ^ 64 = size := by
    rw [h.high, h.low]
    omega
  unfold kmalloc
  rw [if_neg (by rw [h.head]; omega), hdiff]
  by_cases hbig : size < n
  · refine .inl ⟨alloc_eq_none.mpr fun b hb _ => ?_, if_pos hbig⟩
    have := size_le_span (H := headerSize) hb
    unfold roundUp
    omega
  have halign : alignUp n = roundUp n := by
    unfold alignUp roundUp
    rw [Nat.mod_eq_of_lt (by omega)]
  have hmin : ¬ roundUp n < minAlloc := by
    unfold roundUp minAlloc
    omega
  rw [if_neg hbig, halign]
  dsimp only
  rw [if_neg hmin]
  have ht : Tiles s.heap.mem s.heap.stop start bs := by rw [h.high]; exact h.tiles
  have hlen : bs.length ≤ s.heap.stop - s.heap.start := by
    rw [h.low]
    exact ht.length_le
  have hdvd : 16 ∣ roundUp n := Nat.dvd_mul_left 16 _
  have hpos : 0 < roundUp n := by
    unfold roundUp
    omega
  have hhead : s.heap.head = entry start bs := by rw [h.entry_eq hr, h.head]
  rw [hhead]
  rcases scan_eq ht h.low.le (by omega) (by rw [h.high]; omega) hdvd hpos hlen with
    ⟨hnone, hscan⟩ | ⟨p, bs', mem', hsome, hscan, htiles, -⟩
  · exact .inl ⟨hnone, hscan⟩
  rw [h.high] at htiles
  exact .inr ⟨p, bs', mem', hsome, by rw [← hhead] at hscan ⊢; exact hscan, htiles⟩

theorem HeapOk.kmalloc (n : ℕ) : ∃ bs', HeapOk start size (s.exec (.kmalloc n)) bs' := by
  have hH : headerSize = 32 := rfl
  by_cases hn : n = 0
  · have hnull : s.heap.kmalloc n = (s.heap, 0) := if_pos (.inl hn)
    refine ⟨bs, ?_⟩
    simpa only [exec, hnull, if_true] using h
  rcases h.kmalloc_eq hr hn with ⟨-, hnull⟩ | ⟨p, bs', mem', hsome, heq, htiles⟩
  · refine ⟨bs, ?_⟩
    simpa only [exec, hnull, if_true] using h
  obtain ⟨k, hk, hbs⟩ := blockAt_alloc hsome
  have hnk : n ≤ k := by unfold roundUp at hk; omega
  have hp : BlockAt p start bs' ⟨k, false⟩ := (hbs p k).mpr (.inl ⟨rfl, rfl⟩)
  have hpos := htiles.header hp
  have hlo := hp.bounds.1
  -- the block was free before, so its place was not in use
  have hfresh : ∀ j, ¬ BlockAt p start bs ⟨j, false⟩ := by
    obtain ⟨pre, b, post, rfl, -, rfl, hb, -⟩ := alloc_split hsome
    intro j hj
    have hfree : BlockAt (start + span headerSize pre) start (pre ++ b :: post) b :=
      (blockAt_append ..).mpr (.inr (.inl ⟨rfl, rfl⟩))
    rcases hj.apart hfree with ⟨-, rfl⟩ | hlt
    · exact absurd hb (by simp)
    · omega
  refine ⟨bs', ?_⟩
  simp only [exec, heq]
  rw [if_neg (by omega)]
  refine ⟨h.head, h.low, h.high, htiles, h.apart.alloc hsome,
    h.backed.cons hnk hfresh hbs, fun x hx => ?_, fun q hq => ?_⟩
  · rcases List.mem_cons.mp hx with rfl | hx
    · exact List.mem_cons_self
    · exact List.mem_cons_of_mem _ (h.live x hx)
  · rcases List.mem_cons.mp hq with rfl | hq
    · exact ⟨by omega, by have := hpos.2.2; omega⟩
    · exact h.given q hq

theorem HeapOk.joinFree {hdr : ℕ}
    (ht : Tiles (s.heap.setFree hdr 1).mem (start + size) start bs') :
    ∃ mem', joinFree (s.heap.stop - s.heap.start) (s.heap.setFree hdr 1) s.heap.head =
        { s.heap with mem := mem' } ∧
      Tiles mem' (start + size) start (coalesce headerSize bs') := by
  have hlow := hr.low
  obtain ⟨b, cs, rfl⟩ := List.exists_cons_of_ne_nil (hr.ne_nil ht)
  have ht' : Tiles (s.heap.setFree hdr 1).mem (s.heap.setFree hdr 1).stop start (b :: cs) := by
    have hstop : (s.heap.setFree hdr 1).stop = start + size := h.high
    rwa [hstop]
  have hlen := ht.length_le
  obtain ⟨mem', heq, hmem', -⟩ := joinFree_eq ht' h.low.le (by omega)
    (h.high.trans_lt hr.high) hlen
  refine ⟨mem', ?_, ?_⟩
  · rwa [h.head, h.high, h.low]
  have hstop : (s.heap.setFree hdr 1).stop = start + size := h.high
  rwa [hstop] at hmem'

theorem HeapOk.kfree (hptr : ptr = 0 ∨ s.heap.inHeap ptr = false ∨ ptr ∈ s.given) :
    ∃ bs', HeapOk start size (s.exec (.kfree ptr)) bs' := by
  have hH : headerSize = 32 := rfl
  have hlow := hr.low
  have hhigh := hr.high
  have ht : Tiles s.heap.mem s.heap.stop start bs := h.high ▸ h.tiles
  have hbounds : ptr ≠ 0 → s.heap.inHeap ptr →
      start + headerSize ≤ ptr ∧ 16 ∣ ptr - start ∧ ptr < start + size := by
    intro h0 hin
    obtain ⟨hlo, hal⟩ := h.given ptr ((hptr.resolve_left h0).resolve_left (by simp [hin]))
    simp only [inHeap, h.high, decide_eq_true_eq] at hin
    exact ⟨hlo, hal, hin.2⟩
  have hhdr : ptr ≠ 0 → s.heap.inHeap ptr →
      (ptr + 2 ^ 64 - headerSize) % 2 ^ 64 = ptr - headerSize := by
    intro h0 hin
    have := hbounds h0 hin
    omega
  by_cases hgo : ptr ≠ 0 ∧ s.heap.inHeap ptr ∧
      s.heap.validHdr (ptr - headerSize) ∧ s.heap.isFree (ptr - headerSize) = false
  · obtain ⟨h0, hin, hvalid, hfree⟩ := hgo
    obtain ⟨hlo, hal, hlt⟩ := hbounds h0 hin
    have hkfree : s.heap.kfree ptr = Heap.joinFree (s.heap.stop - s.heap.start)
        (s.heap.setFree (ptr - headerSize) 1) s.heap.head := by
      unfold Heap.kfree
      simp only [hhdr h0 hin, h0, hin, hvalid, hfree, if_false, Bool.not_true, Bool.false_eq_true]
    -- the row after the store: the block is released, or the pointer is no longer one of a block
    obtain ⟨row, htiles, hrow⟩ : ∃ row, Tiles (s.heap.setFree (ptr - headerSize) 1).mem
        (start + size) start row ∧ ∀ q j, BlockAt q start row ⟨j, false⟩ ↔
          q ≠ ptr - headerSize ∧ BlockAt q start bs ⟨j, false⟩ := by
      by_cases hused : ∃ k, BlockAt (ptr - headerSize) start bs ⟨k, false⟩
      · obtain ⟨k, hk⟩ := hused
        exact ⟨_, h.high ▸ setFree_tiles ht hk, fun q j => blockAt_release ..⟩
      · refine ⟨bs, h.setFree_other (by omega) (by omega) (not_exists.mp hused) hfree, fun q j => ?_⟩
        refine ⟨fun hq => ⟨?_, hq⟩, And.right⟩
        rintro rfl
        exact hused ⟨j, hq⟩
    obtain ⟨mem', heq, hmem'⟩ := h.joinFree hr htiles
    refine ⟨coalesce headerSize row, ?_⟩
    simp only [exec, hkfree, heq]
    refine ⟨h.head, h.low, h.high, hmem', apart_coalesce _, ?_, fun y hy => ?_, h.given⟩
    · have hptr : ptr = ptr - headerSize + headerSize := by omega
      rw [hptr]
      exact h.backed.filter fun q j => by rw [blockAt_coalesce, hrow]
    · exact h.live y (List.mem_filter.mp hy).1
  · have hkfree : s.heap.kfree ptr = s.heap := by
      unfold Heap.kfree
      dsimp only
      split_ifs with h0 hin hvalid hfree <;> try rfl
      have hin : s.heap.inHeap ptr := by simpa using hin
      rw [hhdr h0 hin] at hvalid hfree
      exact absurd ⟨h0, hin, by simpa using hvalid, by simpa using hfree⟩ hgo
    have hdead : ∀ x ∈ s.live, x.1 ≠ ptr := by
      rintro x hx rfl
      obtain ⟨p, k, hb, hxp, -⟩ := h.backed.fits x hx
      obtain ⟨⟨next, hh⟩, -⟩ := h.tiles.header hb
      obtain ⟨hlo, hlt, -⟩ := h.live_bounds hx
      obtain rfl : x.1 - headerSize = p := by omega
      refine hgo ⟨by omega, decide_eq_true ⟨by rw [h.low]; omega, by rw [h.high]; omega⟩,
        validHdr_of_tiles ht hb h.low.le (by omega), isFree_of_header hh⟩
    refine ⟨bs, ?_⟩
    simp only [exec, hkfree, filter_live hdead]
    exact h

theorem HeapOk.exec {c : HeapCall} (hc : s.Legal c) : ∃ bs', HeapOk start size (s.exec c) bs' := by
  cases c with
  | kmalloc n => exact h.kmalloc hr n
  | kfree ptr => exact h.kfree hr hc.2
  | store addr value =>
    obtain ⟨x, hx, hlo, hhi, -⟩ := hc
    obtain ⟨p, k, hp, h1, h2⟩ := h.backed.fits x hx
    exact ⟨bs, h.head, h.low, h.high, h.tiles.store_used hp (by omega) (by omega), h.apart,
      h.backed, h.live, h.given⟩

theorem HeapOk.run {cs : List HeapCall}
    (hc : s.LegalAll cs) : ∃ bs', HeapOk start size (s.run cs) bs' := by
  induction cs generalizing s bs with
  | nil => exact ⟨bs, h⟩
  | cons c cs ih =>
    obtain ⟨bs', h'⟩ := h.exec hr hc.1
    exact ih h' hc.2

theorem HeapOk.kmalloc_eq_null (hn : 0 < n) :
    (s.heap.kmalloc n).2 = 0 ↔ ∀ b ∈ bs, b.free → b.size < roundUp n := by
  rw [← alloc_eq_none (H := headerSize) (M := minAlloc) (a := start)]
  rcases h.kmalloc_eq hr hn.ne' with ⟨hnone, hnull⟩ | ⟨p, bs', mem', hsome, heq, -⟩
  · simp [hnone, hnull]
  rw [hsome, heq]
  simp [headerSize]

theorem HeapOk.single (hlive : s.live = []) : bs = [⟨size - headerSize, true⟩] := by
  have hfree : ∀ b ∈ bs, b.free := by
    rintro ⟨size, free⟩ hb
    obtain ⟨pre, post, rfl⟩ := List.append_of_mem hb
    by_contra hused
    obtain rfl : free = false := by simpa using hused
    obtain ⟨x, hx, -⟩ := h.backed.all _ size ((blockAt_append ..).mpr (.inr (.inl ⟨rfl, rfl⟩)))
    simp [hlive] at hx
  have hs := h.tiles.stop_eq
  have := h.apart.single (H := headerSize) hfree (hr.ne_nil h.tiles)
  rwa [show span headerSize bs = size by omega] at this

end

end

theorem heapOk_init (mem : ℕ → ℕ) (hr : HeapRange start size) :
    HeapOk start size ⟨kmallocInit mem start size, [], []⟩ [⟨size - headerSize, true⟩] := by
  have hH : headerSize = 32 := rfl
  have hroom := hr.room
  have hhigh := hr.high
  have hsz : (size + 2 ^ 64 - headerSize) % 2 ^ 64 = size - headerSize := by omega
  refine ⟨rfl, rfl, Nat.mod_eq_of_lt hr.high, ⟨⟨?_, ?_, ?_, ?_⟩, by dsimp only; omega, by simp, ?_⟩,
    ⟨by simp, trivial⟩, ⟨List.nodup_nil, by simp, by simp [BlockAt]⟩, by simp, by simp⟩
  all_goals simp only [kmallocInit, setMagic, setSize, setFree, setNext, Heap.set]
  · simp (disch := omega) only [update_self, update_of_ne]
  · simp (disch := omega) only [update_self, update_of_ne, hsz]
  · simp (disch := omega) only [update_self, update_of_ne]
    rw [Bool.toNat_true]
    omega
  · simp (disch := omega) only [update_self, entry_nil]
  · simp only [Tiles]
    omega

theorem HeapSys.live_run_kfree (s : HeapSys) (ps : List ℕ) :
    (s.run (ps.map .kfree)).live = s.live.filter fun x => x.1 ∉ ps := by
  induction ps generalizing s with
  | nil => simp [run]
  | cons p ps ih =>
    have hrun : s.run ((p :: ps).map .kfree) = (s.exec (.kfree p)).run (ps.map .kfree) := rfl
    rw [hrun, ih]
    simp only [exec, List.filter_filter]
    refine List.filter_congr fun x _ => ?_
    simp [Bool.and_comm]

theorem HeapSys.legalAll_kfree (ps : List ℕ) (h : ∀ p ∈ ps, p < 2 ^ 64 ∧ p ∈ s.given) :
    s.LegalAll (ps.map .kfree) := by
  induction ps generalizing s with
  | nil => trivial
  | cons p ps ih =>
    have hp := h p (by simp)
    exact ⟨⟨hp.1, .inr (.inr hp.2)⟩, ih fun q hq => h q (by simp [hq])⟩

end

/-- Every run of the heap: the header list tiles the heap with no two free neighbours, live
allocations are blocks in use, apart from each other and large enough, `kmalloc` fails exactly when
no free block holds the rounded size, and freeing what is live leaves the initial block. -/
theorem heap_run {mem : ℕ → ℕ} {start size : ℕ} {cs : List HeapCall} {f : HeapSys}
    (hr : HeapRange start size)
    (hl : HeapSys.LegalAll ⟨kmallocInit mem start size, [], []⟩ cs)
    (hf : f = run ⟨kmallocInit mem start size, [], []⟩ cs) :
    f.heap.head = start ∧ ∃ bs, Tiles f.heap.mem (start + size) start bs ∧ Apart bs ∧
      (∀ x ∈ f.live, headerSize ≤ x.1 ∧
        ∃ k, BlockAt (x.1 - headerSize) start bs ⟨k, false⟩ ∧ x.2 ≤ k) ∧
      f.live.Pairwise (fun x y => x.1 + x.2 ≤ y.1 ∨ y.1 + y.2 ≤ x.1) ∧
      (∀ n, 0 < n → n < 2 ^ 64 →
        ((f.heap.kmalloc n).2 = 0 ↔ ∀ b ∈ bs, b.free = true → b.size < roundUp n)) ∧
      ∀ ps : List ℕ, ps.Perm (f.live.map Prod.fst) →
        Tiles (f.run (ps.map .kfree)).heap.mem (start + size) start
          [⟨size - headerSize, true⟩] := by
  subst hf
  obtain ⟨bs, h⟩ := (heapOk_init mem hr).run hr hl
  refine ⟨h.head, bs, h.tiles, h.apart, fun x hx => ?_, h.disjoint,
    fun n hn _ => h.kmalloc_eq_null hr hn, fun ps hps => ?_⟩
  · obtain ⟨p, k, hp, hxp, hk⟩ := h.backed.fits x hx
    refine ⟨by omega, k, ?_, hk⟩
    rw [hxp, Nat.add_sub_cancel]
    exact hp
  have hlegal := legalAll_kfree ps fun p hp => by
    obtain ⟨x, hx, rfl⟩ := List.mem_map.mp (hps.mem_iff.mp hp)
    have hlt := (h.live_bounds hx).2.1
    have hhigh := hr.high
    exact ⟨by omega, h.live x hx⟩
  obtain ⟨bs', h'⟩ := h.run hr hlegal
  have hempty : ((run ⟨kmallocInit mem start size, [], []⟩ cs).run
      (ps.map .kfree)).live = [] := by
    rw [live_run_kfree]
    refine List.filter_eq_nil_iff.mpr fun x hx => ?_
    have : x.1 ∈ ps := hps.mem_iff.mpr (List.mem_map_of_mem hx)
    simpa using this
  have hsingle := h'.single hr hempty
  rw [hsingle] at h'
  exact h'.tiles

/-- Two allocations, a store, a free made twice and an allocation that reuses the block. -/
def sampleHeapCalls : List HeapCall :=
  [.kmalloc 40, .kmalloc 16, .store 4128 7, .kfree 4128, .kfree 4128, .kmalloc 17]

theorem sampleHeapCalls_legal :
    HeapSys.LegalAll ⟨kmallocInit (fun _ => 0) 4096 256, [], []⟩ sampleHeapCalls := by
  decide +kernel

theorem sampleHeapCalls_run :
    ∃ bs, Tiles (run ⟨kmallocInit (fun _ => 0) 4096 256, [], []⟩ sampleHeapCalls).heap.mem
      4352 4096 bs ∧ Apart bs := by
  obtain ⟨-, bs, htiles, hapart, -⟩ := heap_run (f := run _ _)
    ⟨by decide, by decide, by decide⟩ sampleHeapCalls_legal rfl
  exact ⟨bs, htiles, hapart⟩

end Exploidus.Mm
