import Exploidus.Mm.Kmalloc

/-! The header list of the heap as a row of blocks, and the two loops of the allocator as the
operations on rows they perform. -/
namespace Exploidus.Mm
open FirstFit Function Heap

/-- The header at `a` describes the block `b` and points to `next`. -/
structure HeaderAt (mem : ℕ → ℕ) (a : ℕ) (b : Block) (next : ℕ) : Prop where
  magic : mem a = heapMagic
  size : mem (a + 8) = b.size
  free : mem (a + 16) % 256 = b.free.toNat
  next : mem (a + 24) = next

/-- The pointer to the rest of the list: NULL after the last block. -/
def entry (a : ℕ) (bs : List Block) : ℕ := if bs.isEmpty then 0 else a

/-- The header list from `a` on is the row `bs`, without gap or overlap up to `stop`. Headers stay
on multiples of 16, so only the last block may have another size. -/
def Tiles (mem : ℕ → ℕ) (stop : ℕ) : ℕ → List Block → Prop
  | a, [] => a = stop
  | a, b :: bs => HeaderAt mem a b (entry (a + headerSize + b.size) bs) ∧ 0 < b.size ∧
      (bs ≠ [] → 16 ∣ b.size) ∧ Tiles mem stop (a + headerSize + b.size) bs

section
variable {mem mem' : ℕ → ℕ} {stop a n : ℕ} {b : Block} {bs : List Block}

@[simp] theorem entry_nil : entry a [] = 0 := rfl
@[simp] theorem entry_cons : entry a (b :: bs) = a := rfl

theorem entry_congr (a : ℕ) {cs : List Block} (h : cs = [] ↔ bs = []) :
    entry a cs = entry a bs := by
  cases bs <;> cases cs <;> simp_all

theorem Tiles.stop_eq (h : Tiles mem stop a bs) : stop = a + span headerSize bs := by
  induction bs generalizing a with
  | nil => exact h.symm
  | cons b bs ih => rw [ih h.2.2.2, span]; omega

theorem Tiles.length_le (h : Tiles mem stop a bs) : bs.length ≤ stop - a := by
  rw [h.stop_eq, Nat.add_sub_cancel_left]
  clear h
  induction bs with
  | nil => simp
  | cons b bs ih =>
    have : headerSize = 32 := rfl
    simp only [List.length_cons, span]
    omega

theorem HeaderAt.congr {next : ℕ} (h : HeaderAt mem a b next)
    (hm : ∀ x, a ≤ x → x ≤ a + 24 → mem' x = mem x) : HeaderAt mem' a b next := by
  refine ⟨?_, ?_, ?_, ?_⟩
  · rw [hm a le_rfl (by omega), h.magic]
  · rw [hm (a + 8) (by omega) (by omega), h.size]
  · rw [hm (a + 16) (by omega) (by omega), h.free]
  · rw [hm (a + 24) (by omega) le_rfl, h.next]

theorem Tiles.congr (h : Tiles mem stop a bs) (hm : ∀ x, a ≤ x → mem' x = mem x) :
    Tiles mem' stop a bs := by
  induction bs generalizing a with
  | nil => exact h
  | cons b bs ih =>
    obtain ⟨hh, hpos, hdvd, hrest⟩ := h
    exact ⟨hh.congr fun x hx _ => hm x hx, hpos, hdvd, ih hrest fun x hx => hm x (by omega)⟩

def BlockAt : ℕ → ℕ → List Block → Block → Prop
  | _, _, [], _ => False
  | p, a, b :: bs, c => (p = a ∧ c = b) ∨ BlockAt p (a + headerSize + b.size) bs c

theorem BlockAt.bounds {p : ℕ} {c : Block} (h : BlockAt p a bs c) :
    a ≤ p ∧ p + headerSize + c.size ≤ a + span headerSize bs := by
  induction bs generalizing a with
  | nil => exact h.elim
  | cons b bs ih =>
    rcases h with ⟨rfl, rfl⟩ | h
    · simp only [span]
      omega
    have := ih h
    simp only [span]
    omega

theorem blockAt_append (p a : ℕ) (bs cs : List Block) (c : Block) :
    BlockAt p a (bs ++ cs) c ↔ BlockAt p a bs c ∨ BlockAt p (a + span headerSize bs) cs c := by
  induction bs generalizing a with
  | nil => simp [BlockAt, span]
  | cons b bs ih =>
    rw [List.cons_append, BlockAt, BlockAt, ih, span, or_assoc]
    simp only [Nat.add_assoc]

/-- Two blocks of a row are the same or apart. -/
theorem BlockAt.apart {p q : ℕ} {c d : Block} (hp : BlockAt p a bs c) (hq : BlockAt q a bs d) :
    (p = q ∧ c = d) ∨ p + headerSize + c.size ≤ q ∨ q + headerSize + d.size ≤ p := by
  induction bs generalizing a with
  | nil => exact hp.elim
  | cons b bs ih =>
    rcases hp with ⟨rfl, rfl⟩ | hp <;> rcases hq with ⟨rfl, rfl⟩ | hq
    · exact .inl ⟨rfl, rfl⟩
    · exact .inr (.inl hq.bounds.1)
    · exact .inr (.inr hp.bounds.1)
    · exact ih hp hq

/-- First fit adds a block in use that holds `n` bytes. -/
theorem blockAt_alloc {M p : ℕ} {bs' : List Block} (h : alloc headerSize M n a bs = some (p, bs')) :
    ∃ k, n ≤ k ∧ ∀ q j, BlockAt q a bs' ⟨j, false⟩ ↔ q = p ∧ j = k ∨ BlockAt q a bs ⟨j, false⟩ := by
  obtain ⟨pre, ⟨size, free⟩, post, rfl, rfl, rfl, rfl, hn⟩ := alloc_split h
  have hspan : span headerSize (carve headerSize M n ⟨size, true⟩) = _ := span_carve hn
  simp only [blockAt_append, hspan, BlockAt]
  unfold carve
  split
  · exact ⟨n, le_rfl, fun q j => by simp [BlockAt, Nat.add_assoc]; tauto⟩
  · exact ⟨size, hn, fun q j => by simp [BlockAt, Nat.add_assoc]; tauto⟩

theorem blockAt_release (q p a j : ℕ) (bs : List Block) :
    BlockAt q a (release headerSize p a bs) ⟨j, false⟩ ↔ q ≠ p ∧ BlockAt q a bs ⟨j, false⟩ := by
  have hH : headerSize = 32 := rfl
  induction bs generalizing a with
  | nil => simp [release, BlockAt]
  | cons b bs ih =>
    unfold release
    split_ifs with hap
    · have hne : BlockAt q (a + headerSize + b.size) bs ⟨j, false⟩ → q ≠ p := fun hq => by
        have := hq.bounds.1
        omega
      simp only [BlockAt, Block.mk.injEq, Bool.false_eq_true, and_false, false_or]
      exact ⟨fun hq => ⟨hne hq, .inr hq⟩, fun hq => hq.2.resolve_left fun h => hq.1 (h.1.trans hap)⟩
    · simp only [BlockAt, ih]
      refine ⟨?_, fun hq => hq.2.imp id fun h => ⟨hq.1, h⟩⟩
      rintro (hq | hq)
      · exact ⟨fun hqp => hap (hq.1.symm.trans hqp), .inl hq⟩
      · exact ⟨hq.1, .inr hq.2⟩

theorem blockAt_coalesce (q a j : ℕ) (bs : List Block) :
    BlockAt q a (coalesce headerSize bs) ⟨j, false⟩ ↔ BlockAt q a bs ⟨j, false⟩ := by
  induction bs generalizing a with
  | nil => rfl
  | cons b bs ih =>
    rw [coalesce, BlockAt, ← ih]
    cases coalesce headerSize bs with
    | nil => rfl
    | cons c cs =>
      obtain ⟨size, free⟩ := b
      obtain ⟨size', free'⟩ := c
      cases free <;> cases free' <;> simp [push, BlockAt, Nat.add_assoc]

theorem Tiles.header {p : ℕ} {c : Block} (h : Tiles mem stop a bs) (hp : BlockAt p a bs c) :
    (∃ next, HeaderAt mem p c next) ∧ 0 < c.size ∧ 16 ∣ p - a := by
  induction bs generalizing a with
  | nil => exact hp.elim
  | cons b bs ih =>
    obtain ⟨hh, hpos, hdvd, hrest⟩ := h
    rcases hp with ⟨rfl, rfl⟩ | hp
    · exact ⟨⟨_, hh⟩, hpos, by simp⟩
    obtain ⟨h1, h2, h3⟩ := ih hrest hp
    have hb : 16 ∣ b.size := hdvd (by rintro rfl; exact hp)
    have hle := hp.bounds.1
    have hH : headerSize = 32 := rfl
    exact ⟨h1, h2, by omega⟩

theorem Tiles.store {x v : ℕ} (h : Tiles mem stop a bs)
    (hx : ∀ p c, BlockAt p a bs c → x ≠ p ∧ x ≠ p + 8 ∧ x ≠ p + 16 ∧ x ≠ p + 24) :
    Tiles (update mem x v) stop a bs := by
  induction bs generalizing a with
  | nil => exact h
  | cons b bs ih =>
    obtain ⟨hh, hpos, hdvd, hrest⟩ := h
    obtain ⟨h1, h2, h3, h4⟩ := hx a b (.inl ⟨rfl, rfl⟩)
    refine ⟨⟨?_, ?_, ?_, ?_⟩, hpos, hdvd, ih hrest fun p c hp => hx p c (.inr hp)⟩
    · rw [update_of_ne h1.symm, hh.magic]
    · rw [update_of_ne h2.symm, hh.size]
    · rw [update_of_ne h3.symm, hh.free]
    · rw [update_of_ne h4.symm, hh.next]

theorem Tiles.store_used {p k x v : ℕ} (h : Tiles mem stop a bs)
    (hp : BlockAt p a bs ⟨k, false⟩) (hlo : p + headerSize ≤ x)
    (hhi : x < p + headerSize + k) : Tiles (update mem x v) stop a bs := by
  refine h.store fun q c hq => ?_
  have hH : headerSize = 32 := rfl
  have hsep := hq.apart hp
  dsimp only at hsep
  omega

end

/-! ### The scan -/

section
variable {h : Heap} {a n : ℕ} {b : Block} {bs : List Block}

theorem Heap.validHdr_of_tiles {p : ℕ} (ht : Tiles h.mem h.stop a bs) (hp : BlockAt p a bs b)
    (hlo : h.start ≤ a) (ha : a ≠ 0) : h.validHdr p := by
  have hstop := ht.stop_eq
  have hbounds := hp.bounds
  obtain ⟨⟨next, hh⟩, hpos, -⟩ := ht.header hp
  have hin : h.inHeap p := decide_eq_true ⟨by omega, by omega⟩
  simp [validHdr, hin, magicOf, sizeOf, hh.magic, hh.size, hpos, show p ≠ 0 by omega]

theorem Heap.isFree_of_header {next : ℕ} (hh : HeaderAt h.mem a b next) : h.isFree a = b.free := by
  unfold isFree
  rw [hh.free]
  cases b.free <;> rfl

private theorem flag_word (w v : ℕ) (hv : v < 256) : (w / 256 * 256 + v) % 256 = v := by
  omega

theorem Heap.takeBlock_eq (ht : Tiles h.mem h.stop a (b :: bs)) (hlo : h.start ≤ a)
    (hbound : h.stop < 2 ^ 64) (hn : 16 ∣ n) (hpos : 0 < n) (hfit : n ≤ b.size) :
    ∃ mem', h.takeBlock a n = ({ h with mem := mem' }, a + headerSize) ∧
      Tiles mem' h.stop a (carve headerSize minAlloc n b ++ bs) ∧
      ∀ x < a, mem' x = h.mem x := by
  have hstop := ht.stop_eq
  obtain ⟨hh, hbpos, hdvd, hrest⟩ := ht
  have hH : headerSize = 32 := rfl
  have hM : minAlloc = 16 := rfl
  have hsz : h.sizeOf a = b.size := hh.size
  rw [span] at hstop
  unfold takeBlock carve
  rw [hsz]
  by_cases hsplit : headerSize + minAlloc ≤ b.size - n
  · have hs : (a + headerSize + n) % 2 ^ 64 = a + headerSize + n :=
      Nat.mod_eq_of_lt (by omega)
    have hin : h.inHeap (a + headerSize + n) :=
      decide_eq_true ⟨by omega, by omega⟩
    simp only [if_pos hsplit, hs, hin, if_true]
    refine ⟨_, rfl, ?_, fun x hx => ?_⟩
    · have hend : a + headerSize + n + headerSize + (b.size - n - headerSize) =
          a + headerSize + b.size := by omega
      simp only [setFree, setSize, setNext, setMagic, set, nextOf,
        List.cons_append, List.nil_append]
      refine ⟨⟨?_, ?_, ?_, ?_⟩, hpos, fun _ => hn, ⟨?_, ?_, ?_, ?_⟩, by dsimp only; omega, ?_, ?_⟩
      all_goals simp (disch := omega) only [update_self, update_of_ne,
        entry_cons, Bool.toNat_false, Bool.toNat_true, flag_word, hend]
      · exact hh.magic
      · exact hh.next
      · intro hne
        have := hdvd hne
        omega
      · refine hrest.congr fun x hx => ?_
        simp (disch := omega) only [update_of_ne]
    · simp only [setFree, setSize, setNext, setMagic, set]
      simp (disch := omega) only [update_of_ne]
  · simp only [if_neg hsplit]
    refine ⟨_, rfl, ?_, fun x hx => ?_⟩
    · refine ⟨⟨?_, ?_, ?_, ?_⟩, hbpos, hdvd, ?_⟩
      all_goals simp (disch := omega) only [update_self, update_of_ne, Bool.toNat_false, flag_word]
      · exact hh.magic
      · exact hh.size
      · exact hh.next
      · refine hrest.congr fun x hx => ?_
        simp (disch := omega) only [update_of_ne]
    · exact update_of_ne (by omega) _ _

/-- The scan of `kmalloc` is first fit on the row. -/
theorem Heap.scan_eq {fuel : ℕ} (ht : Tiles h.mem h.stop a bs) (hlo : h.start ≤ a) (ha : a ≠ 0)
    (hbound : h.stop < 2 ^ 64) (hn : 16 ∣ n) (hpos : 0 < n) (hfuel : bs.length ≤ fuel) :
    (alloc headerSize minAlloc n a bs = none ∧ h.scan n fuel (entry a bs) = (h, 0)) ∨
    ∃ p bs' mem', alloc headerSize minAlloc n a bs = some (p, bs') ∧
      h.scan n fuel (entry a bs) = ({ h with mem := mem' }, p + headerSize) ∧
      Tiles mem' h.stop a bs' ∧ ∀ x < a, mem' x = h.mem x := by
  induction bs generalizing a fuel with
  | nil =>
    refine .inl ⟨rfl, ?_⟩
    cases fuel <;> simp [scan]
  | cons b bs ih =>
    obtain ⟨fuel, rfl⟩ : ∃ k, fuel = k + 1 := ⟨fuel - 1, by simp at hfuel; omega⟩
    have hvalid := validHdr_of_tiles ht (.inl ⟨rfl, rfl⟩) hlo ha
    obtain ⟨hh, hbpos, hdvd, hrest⟩ := id ht
    have hfree := isFree_of_header hh
    have hsz : h.sizeOf a = b.size := hh.size
    have hnext : h.nextOf a = entry (a + headerSize + b.size) bs := hh.next
    rw [entry_cons, scan, if_neg ha, if_neg (by simp [hvalid]), hfree, hsz, hnext]
    by_cases hfit : b.free ∧ n ≤ b.size
    · rw [if_pos (by simpa using hfit)]
      obtain ⟨mem', htake, htiles, hframe⟩ :=
        takeBlock_eq ht hlo hbound hn hpos hfit.2
      exact .inr ⟨a, _, mem', if_pos hfit, htake, htiles, hframe⟩
    rw [if_neg (by simpa using hfit)]
    have halloc : alloc headerSize minAlloc n a (b :: bs) =
        (alloc headerSize minAlloc n (a + headerSize + b.size) bs).map
          fun r => (r.1, b :: r.2) := if_neg hfit
    rcases ih hrest (by omega) (by omega) (by simpa using hfuel) with
      ⟨hnone, hscan⟩ | ⟨p, bs', mem', hsome, hscan, htiles, hframe⟩
    · exact .inl ⟨by rw [halloc, hnone, Option.map_none], hscan⟩
    refine .inr ⟨p, b :: bs', mem', by rw [halloc, hsome, Option.map_some], hscan, ?_,
      fun x hx => hframe x (by omega)⟩
    have hempty : bs' = [] ↔ bs = [] := by
      obtain ⟨pre, c, post, rfl, rfl, -, -, -⟩ := alloc_split hsome
      unfold carve
      split <;> simp
    refine ⟨?_, hbpos, fun hne => hdvd (mt hempty.mpr hne), htiles⟩
    rw [entry_congr _ hempty]
    exact hh.congr fun x _ hx => hframe x (by have : headerSize = 32 := rfl; omega)

/-! ### Freeing -/

theorem Heap.setFree_tiles {p : ℕ} {c : Block} (ht : Tiles h.mem h.stop a bs)
    (hp : BlockAt p a bs c) :
    Tiles (h.setFree p 1).mem h.stop a (release headerSize p a bs) := by
  have hH : headerSize = 32 := rfl
  induction bs generalizing a with
  | nil => exact hp.elim
  | cons b bs ih =>
    obtain ⟨hh, hpos, hdvd, hrest⟩ := ht
    by_cases hpa : a = p
    · subst hpa
      simp only [release, if_true, setFree, set]
      refine ⟨⟨?_, ?_, ?_, ?_⟩, hpos, hdvd, ?_⟩
      all_goals simp (disch := omega) only [update_self, update_of_ne, Bool.toNat_true, flag_word]
      · exact hh.magic
      · exact hh.size
      · exact hh.next
      · exact hrest.congr fun x hx => update_of_ne (by omega) _ _
    have hp' := hp.resolve_left fun h => hpa h.1.symm
    have hle := hp'.bounds.1
    have hempty : release headerSize p (a + headerSize + b.size) bs = [] ↔ bs = [] := by
      cases bs with
      | nil => simp [release]
      | cons d bs => unfold release; split <;> simp
    rw [release, if_neg hpa]
    refine ⟨?_, hpos, fun hne => hdvd (mt hempty.mpr hne), ih hrest hp'⟩
    rw [entry_congr _ hempty]
    exact hh.congr fun x _ hx => update_of_ne (by omega) _ _

theorem Heap.join_tiles {c : Block} (ht : Tiles h.mem h.stop a (b :: c :: bs))
    (hbound : h.stop < 2 ^ 64) (hb : b.free) {h1 : Heap}
    (h1def : h1 = h.setSize a ((h.sizeOf a + (headerSize + h.sizeOf (h.nextOf a))) % 2 ^ 64)) :
    Tiles (h1.setNext a (h1.nextOf (h1.nextOf a))).mem h.stop a
      (⟨b.size + headerSize + c.size, true⟩ :: bs) ∧
    ∀ x < a, (h1.setNext a (h1.nextOf (h1.nextOf a))).mem x = h.mem x := by
  have hH : headerSize = 32 := rfl
  have hstop := ht.stop_eq
  obtain ⟨hh, hpos, hdvd, hc, hcpos, hcdvd, hrest⟩ := ht
  simp only [span] at hstop
  rw [entry_cons] at hh
  have hnext : h.nextOf a = a + headerSize + b.size := hh.next
  have hsz : h.sizeOf a = b.size := hh.size
  have hcsz : h.sizeOf (a + headerSize + b.size) = c.size := hc.size
  have hsum : (b.size + (headerSize + c.size)) % 2 ^ 64 = b.size + headerSize + c.size := by
    rw [Nat.mod_eq_of_lt (by omega)]
    omega
  have hend : a + headerSize + (b.size + headerSize + c.size) =
      a + headerSize + b.size + headerSize + c.size := by omega
  have hn1 : h1.nextOf a = a + headerSize + b.size := by
    rw [h1def, ← hnext]
    exact update_of_ne (by omega) _ _
  have hn2 : h1.nextOf (a + headerSize + b.size) =
      entry (a + headerSize + b.size + headerSize + c.size) bs := by
    rw [h1def, ← hc.next]
    exact update_of_ne (by omega) _ _
  rw [hn1, hn2, h1def, hnext, hsz, hcsz, hsum]
  have hbdvd : 16 ∣ b.size := hdvd (by simp)
  simp only [setSize, setNext, set]
  refine ⟨⟨⟨?_, ?_, ?_, ?_⟩, by dsimp only; omega, fun hne => ?_, ?_⟩, fun x hx => ?_⟩
  all_goals simp (disch := omega) only [update_self, update_of_ne, hend]
  · exact hh.magic
  · rw [hh.free, hb]
  · have := hcdvd hne
    omega
  · refine hrest.congr fun x hx => ?_
    simp (disch := omega) only [update_of_ne]

/-- The joining loop of `kfree` joins all free neighbours of the row. -/
theorem Heap.joinFree_eq {fuel : ℕ} (ht : Tiles h.mem h.stop a (b :: bs)) (hlo : h.start ≤ a)
    (ha : a ≠ 0) (hbound : h.stop < 2 ^ 64) (hfuel : (b :: bs).length ≤ fuel) :
    ∃ mem', joinFree fuel h a = { h with mem := mem' } ∧
      Tiles mem' h.stop a (coalesce headerSize (b :: bs)) ∧ ∀ x < a, mem' x = h.mem x := by
  induction fuel generalizing h a b bs with
  | zero => simp at hfuel
  | succ fuel ih =>
    have hvalid := validHdr_of_tiles ht (.inl ⟨rfl, rfl⟩) hlo ha
    have hfree := isFree_of_header ht.1
    have hnext : h.nextOf a = entry (a + headerSize + b.size) bs := ht.1.next
    cases bs with
    | nil =>
      refine ⟨h.mem, ?_, ht, fun _ _ => rfl⟩
      exact if_pos (.inr hnext)
    | cons c bs =>
      have htc := ht.2.2.2
      have hcfree := isFree_of_header htc.1
      have hcvalid := validHdr_of_tiles htc (.inl ⟨rfl, rfl⟩) (by omega) (by omega)
      rw [entry_cons] at hnext
      rw [joinFree, if_neg (by rw [hnext]; omega), hnext,
        if_neg (by simp [hvalid, hcvalid]), hfree, hcfree]
      by_cases hboth : b.free ∧ c.free
      · -- the scan stays at `a`, one block shorter
        rw [if_pos (by simpa using hboth)]
        obtain ⟨htj, hframe⟩ := join_tiles ht hbound hboth.1 rfl
        rw [hnext] at htj hframe
        obtain ⟨mem', heq, hmem', hframe'⟩ :=
          ih htj hlo ha hbound (by simp only [List.length_cons] at hfuel ⊢; omega)
        refine ⟨mem', heq, ?_, fun x hx => (hframe' x hx).trans (hframe x hx)⟩
        rwa [coalesce, coalesce, push_push hboth.1 hboth.2]
      rw [if_neg (by simpa using hboth)]
      obtain ⟨mem', heq, hmem', hframe'⟩ :=
        ih htc (by omega) (by omega) hbound (by simpa using hfuel)
      refine ⟨mem', heq, ?_, fun x hx => hframe' x (by omega)⟩
      obtain ⟨d, ds, hcons, hd⟩ := push_head headerSize c (coalesce headerSize bs)
      have hdf : b.free → d.free = false := fun hbf => by
        rw [hd]
        simpa [hbf] using hboth
      rw [coalesce, coalesce, hcons, push_eq_cons (by simpa using hdf)]
      rw [coalesce, hcons] at hmem'
      refine ⟨?_, ht.2.1, fun _ => ht.2.2.1 (by simp), hmem'⟩
      have hh := ht.1
      rw [entry_cons] at hh ⊢
      exact hh.congr fun x _ hx => hframe' x (by have : headerSize = 32 := rfl; omega)

end
end Exploidus.Mm
