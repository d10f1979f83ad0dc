import Exploidus.Exfs.FileRun
import Mathlib.Data.List.TakeWhile

/-! What the whole-file hash covers. `exfs_compute_whole_file_hash` stops at the first unmapped
block, so its input is the whole file exactly if every block below the size is mapped. -/
namespace Exploidus.Exfs
open ByteLayout List Volume

namespace Volume

/-- The bytes `exfs_compute_whole_file_hash` feeds to the hash. -/
def hashInput (vol : Volume) (i : Inode) : List UInt8 :=
  vol.hashedBytes i (i.size.toNat / 4096 + 1) i.size.toNat 0

end Volume

def hashOf (bs : List UInt8) : UInt64 := UInt64.ofNat (le 8 fun k => (Blake3.hash bs).getD k 0)

theorem computeWholeFileHash_eq (vol : Volume) (i : Inode) :
    vol.computeWholeFileHash i = hashOf (vol.hashInput i) := rfl

def Covered (d : ℕ → Block) (i : Inode) : Prop :=
  ∀ x, x < i.size.toNat → blockAt d i (x / 4096) ≠ 0

section Input
variable {vol vol' : Volume} {i i' : Inode}

theorem byteAt_isSome_iff (d : ℕ → Block) (i : Inode) (x : ℕ) :
    (byteAt d i x).isSome ↔ blockAt d i (x / 4096) ≠ 0 := by
  unfold byteAt
  split_ifs with h
  · simp [h]
  · simp [h]

theorem hashedBytes_eq (vol : Volume) (i : Inode) (fuel : ℕ) {remaining fb : ℕ}
    (hfuel : remaining ≤ fuel * 4096) : vol.hashedBytes i fuel remaining fb =
      (((range' (fb * 4096) remaining).map (byteAt vol.disk i)).takeWhile
        Option.isSome).filterMap id := by
  induction fuel generalizing remaining fb with
  | zero =>
    obtain rfl : remaining = 0 := by omega
    rfl
  | succ fuel ih =>
    unfold hashedBytes
    by_cases hrem : remaining = 0
    · rw [if_pos hrem, hrem]
      rfl
    rw [if_neg hrem, blockOf_eq]
    dsimp only
    by_cases h0 : blockAt vol.disk i fb = 0
    · have hnone : byteAt vol.disk i (fb * 4096) = none := by
        rw [byteAt, Nat.mul_div_cancel _ (by decide), if_pos h0]
      obtain ⟨m, rfl⟩ : ∃ m, remaining = m + 1 := ⟨remaining - 1, by omega⟩
      rw [if_pos h0, range'_succ, map_cons, hnone]
      rfl
    -- One chunk of mapped bytes, then the rest.
    generalize hchunk : min remaining 4096 = chunk
    have hsome : (range' (fb * 4096) chunk).map (byteAt vol.disk i) =
        ((range chunk).map (vol.readBlock (blockAt vol.disk i fb)).byte).map some := by
      rw [range'_eq_map_range, map_map, map_map]
      refine map_congr_left fun k hk => ?_
      have hk' := mem_range.mp hk
      have hdiv : (fb * 4096 + k) / 4096 = fb := by omega
      have hmod : (fb * 4096 + k) % 4096 = k := by omega
      simp [byteAt, hdiv, hmod, h0, readBlock]
    have hsplit : range' (fb * 4096) remaining =
        range' (fb * 4096) chunk ++ range' (fb * 4096 + chunk) (remaining - chunk) := by
      rw [range'_append_1, Nat.add_sub_cancel' (by omega)]
    have hrest : vol.hashedBytes i fuel (remaining - chunk) (fb + 1) =
        (((range' (fb * 4096 + chunk) (remaining - chunk)).map
          (byteAt vol.disk i)).takeWhile Option.isSome).filterMap id := by
      by_cases hlast : remaining ≤ 4096
      · rw [show remaining - chunk = 0 by omega]
        cases fuel <;> rfl
      · rw [ih (by omega), show fb * 4096 + chunk = (fb + 1) * 4096 by omega]
    rw [if_neg h0, hsplit, map_append, hsome, takeWhile_append_of_pos (by simp),
      filterMap_append, hrest, filterMap_map]
    simp

theorem hashInput_eq (vol : Volume) (i : Inode) : vol.hashInput i =
    (((range i.size.toNat).map (byteAt vol.disk i)).takeWhile
      Option.isSome).filterMap id := by
  rw [hashInput, hashedBytes_eq vol i _ (by omega), Nat.zero_mul, ← range_eq_range']

theorem hashInput_congr (hsize : i'.size = i.size)
    (h : ∀ x < i.size.toNat, byteAt vol'.disk i' x = byteAt vol.disk i x) :
    vol'.hashInput i' = vol.hashInput i := by
  rw [hashInput_eq, hashInput_eq, hsize]
  congr 2
  exact map_congr_left fun x hx => h x (mem_range.mp hx)

structure HashCovers (vol : Volume) (i : Inode) : Prop where
  length : (vol.hashInput i).length = i.size.toNat
  bytes : ∀ x b, x < i.size.toNat → byteAt vol.disk i x = some b → (vol.hashInput i)[x]? = some b

theorem hashInput_of_covered (h : Covered vol.disk i) : vol.hashInput i =
    (range i.size.toNat).map fun x => (vol.disk (blockAt vol.disk i (x / 4096))).byte
      (x % 4096) := by
  have hmap : (range i.size.toNat).map (byteAt vol.disk i) =
      ((range i.size.toNat).map fun x => (vol.disk (blockAt vol.disk i (x / 4096))).byte
        (x % 4096)).map some := by
    rw [map_map]
    exact map_congr_left fun x hx => byteAt_of_ne (h x (mem_range.mp hx))
  rw [hashInput_eq, hmap, takeWhile_eq_self_iff.mpr (by simp), filterMap_map]
  simp

theorem hashCovers_iff : HashCovers vol i ↔ Covered vol.disk i := by
  constructor
  · intro h x hx
    have hlen := h.length
    rw [hashInput_eq] at hlen
    -- A list that loses nothing to `takeWhile` and `filterMap` has no empty place.
    have hle := length_filterMap_le (f := id)
      (((range i.size.toNat).map (byteAt vol.disk i)).takeWhile Option.isSome)
    have hpre := takeWhile_prefix (p := Option.isSome)
      (l := (range i.size.toNat).map (byteAt vol.disk i))
    have hall : ((range i.size.toNat).map (byteAt vol.disk i)).takeWhile Option.isSome =
        (range i.size.toNat).map (byteAt vol.disk i) :=
      hpre.eq_of_length_le (by simp only [length_map, length_range]; omega)
    refine (byteAt_isSome_iff _ _ _).mp (takeWhile_eq_self_iff.mp hall _ ?_)
    exact mem_map_of_mem (mem_range.mpr hx)
  · intro h
    refine ⟨by rw [hashInput_of_covered h]; simp, fun x b hx hb => ?_⟩
    rw [hashInput_of_covered h]
    rw [byteAt_of_ne (h x hx)] at hb
    simp [hx, Option.some.inj hb]

theorem opRead_eq_hashInput (vol : Volume) (node : Node) (h : Covered vol.disk node.inode) :
    (vol.opRead node 0 node.inode.size.toNat).2.2 = vol.hashInput node.inode := by
  have hc : Content vol.disk node.inode (vol.hashInput node.inode) := by
    have hcov := hashCovers_iff.mpr h
    refine ⟨hcov.length.symm, fun x hx => ?_⟩
    rw [hcov.length] at hx
    have hb := hcov.bytes x _ hx (byteAt_of_ne (h x hx))
    rw [byteAt_of_ne (h x hx), getD_eq_getElem?_getD, hb, Option.getD_some]
  have hlt : 0 + node.inode.size.toNat < 2 ^ 64 := by
    have := node.inode.size.toNat_lt
    omega
  rw [hc.opRead (.inl hlt), drop_zero, hc.size, take_length]

end Input

section Loop
variable {g : Superblock} {R : ℕ × Root → ℕ} {n off : ℕ} {vol : Volume} {i : Inode}
  {data : List UInt8} {lp : Volume × Inode × ℕ × Bool}

theorem Resolved.byteAt_failed {fb : ℕ} {r : Volume × Inode × ℕ × Bool}
    (hres : Resolved g R n vol i fb r) (hm : Mid g (withInode R n i) vol)
    (hidle : vol.jtxnActive = false) (hidle' : r.1.jtxnActive = false) (h0 : r.2.2.1 = 0) (x : ℕ) :
    byteAt r.1.disk r.2.1 x = byteAt vol.disk i x := by
  cases hb : byteAt vol.disk i x with
  | some b => exact hres.byteAt_eq hm hidle hb
  | none =>
    have hnone : blockAt vol.disk i (x / 4096) = 0 := by
      by_contra hne
      rw [byteAt_of_ne hne] at hb
      cases hb
    refine if_pos ?_
    by_cases hfb : x / 4096 = fb
    · have hblock := hres.block
      rwa [view_of_idle hidle', h0, ← hfb] at hblock
    · have hother := hres.other hfb
      rwa [view_of_idle hidle', view_of_idle hidle, hnone] at hother

theorem Mid.writeLoop_zero (hm : Mid g (withInode R n i) vol) (hidle : vol.jtxnActive = false)
    (hoff : off < 2 ^ 64) (h : lp = Volume.writeLoop off data data.length vol i 0 false)
    (h0 : lp.2.2.1 = 0) (x : ℕ) : byteAt lp.1.disk lp.2.1 x = byteAt vol.disk i x := by
  cases hlen : data.length with
  | zero =>
    rw [hlen] at h
    rw [h]
    rfl
  | succ fuel =>
    generalize hr : vol.resolveBlock i ((off + 0) / 4096) true = r
    obtain ⟨hloop, hres⟩ := hm.resolve_loop hidle _ hr.symm
    by_cases hblk : r.2.2.1 = 0
    · rw [hlen, Volume.writeLoop, if_neg (by omega), Nat.mod_eq_of_lt (by omega)] at h
      dsimp only at h
      rw [hr, if_pos hblk] at h
      rw [h]
      exact hres.byteAt_failed hm hidle hloop.idle hblk x
    have hblock := hres.block
    rw [Volume.view_of_idle hloop.idle] at hblock
    have hmax := lt_of_blockAt (hblock.trans_ne hblk)
    have hdata : 0 < data.length := by omega
    obtain ⟨can, vol', dirty', hpos, hcan, hfits', hmid, hidle', -, heq⟩ :=
      hm.writeTurn hidle hdata (by unfold maxDirBlocks at hmax ⊢; omega) hr hblk fuel false
    rw [hlen] at h
    have hnext := hmid.writeLoop_bytes off data fuel hidle' dirty' hcan (by omega)
      (by omega) (h.trans heq)
    have := hnext.le
    omega

theorem Mid.writeLoop_stuck (hm : Mid g (withInode R n i) vol) (hidle : vol.jtxnActive = false)
    (hoff : off < 2 ^ 64) (h : lp = Volume.writeLoop off data data.length vol i 0 false)
    (hhole : blockAt vol.disk i (off / 4096) = 0)
    (hleaf : data ≠ [] → nextLeaf g vol i (off / 4096) = 0) : lp.2.2.1 = 0 := by
  cases hlen : data.length with
  | zero =>
    rw [hlen] at h
    rw [h]
    rfl
  | succ fuel =>
    have hne : data ≠ [] := by
      rintro rfl
      cases hlen
    have hzero := hm.resolveBlock_nextLeaf hidle hhole
    rw [hleaf hne] at hzero
    rw [hlen, Volume.writeLoop, if_neg (by omega), Nat.mod_eq_of_lt (by omega), Nat.add_zero] at h
    dsimp only at h
    rw [if_pos hzero] at h
    rw [h]

theorem Mid.writeLoop_below (off : ℕ) (data : List UInt8) (fuel : ℕ)
    (hm : Mid g (withInode R n i) vol) (hidle : vol.jtxnActive = false) {k : ℕ} (dirty : Bool)
    (hfits : off + k ≤ maxDirBlocks * 4096)
    (h : lp = Volume.writeLoop off data fuel vol i k dirty) {x : ℕ}
    (hx : x / 4096 < (off + k) / 4096) (hnone : byteAt vol.disk i x = none) :
    byteAt lp.1.disk lp.2.1 x = none := by
  induction fuel generalizing vol i k dirty with
  | zero =>
    rwa [h]
  | succ fuel ih =>
    by_cases hdone : data.length ≤ k
    · rw [Volume.writeLoop, if_pos hdone] at h
      rwa [h]
    generalize hr : vol.resolveBlock i ((off + k) / 4096) true = r
    obtain ⟨hloop, hres⟩ := hm.resolve_loop hidle _ hr.symm
    by_cases hblk : r.2.2.1 = 0
    · rw [Volume.writeLoop, if_neg hdone,
        Nat.mod_eq_of_lt (by unfold maxDirBlocks at hfits; omega)] at h
      dsimp only at h
      rw [hr, if_pos hblk] at h
      rw [h]
      exact (hres.byteAt_failed hm hidle hloop.idle hblk x).trans hnone
    obtain ⟨can, vol', dirty', hpos, hcan, hfits', hmid, hidle', hchunk, heq⟩ :=
      hm.writeTurn hidle (lt_of_not_ge hdone) hfits hr hblk fuel dirty
    refine ih hmid hidle' dirty' (by omega) (h.trans heq) (by omega) ?_
    rw [hchunk, if_neg (by omega)]
    have hother := hres.other (f := x / 4096) (by omega)
    rw [Volume.view_of_idle hloop.idle, Volume.view_of_idle hidle] at hother
    have hzero : blockAt vol.disk i (x / 4096) = 0 := by
      by_contra hne
      rw [byteAt_of_ne hne] at hnone
      cases hnone
    exact if_pos (hother.trans hzero)

end Loop

section Write
variable {g : Superblock} {vol : Volume} {node : Node} {off : ℕ} {data : List UInt8}
  {res : Volume × Node × ℕ}

/-- A write at or before the end of the file, or past it where every byte of the gap is mapped or
lies in the block of the offset and that block can be mapped for the data. -/
def GapMapped (g : Superblock) (vol : Volume) (i : Inode) (off : ℕ) (data : List UInt8) : Prop :=
  off ≤ i.size.toNat ∨ ∀ x, i.size.toNat ≤ x → x < off → blockAt vol.disk i (x / 4096) ≠ 0 ∨
    (x / 4096 = off / 4096 ∧ data ≠ [] ∧ nextLeaf g vol i (off / 4096) ≠ 0)

theorem Written.byteAt_eq {lp : Volume × Inode × ℕ × Bool} (hw : Written g vol node off lp res)
    (hr : Rest g vol) (hcur : Current g vol.disk node)
    (hlp : lp = writeLoop off data data.length vol node.inode 0 false) (x : ℕ) :
    byteAt res.1.disk res.2.1.inode x = byteAt lp.1.disk lp.2.1 x := by
  have hm := hcur.mid hr
  obtain ⟨hloop, -⟩ := hm.writeLoop off data data.length hr.idle 0 false hlp
  have howned := hloop.mid.owned
  rw [view_of_idle hloop.idle] at howned
  exact byteAt_congr_data howned (withInode_self _ _ _) hw.root hw.data x

theorem covered_iff_byteAt (d : ℕ → Block) (i : Inode) :
    Covered d i ↔ ∀ x < i.size.toNat, byteAt d i x ≠ none := by
  refine forall_congr' fun x => imp_congr_right fun _ => ?_
  rw [← byteAt_isSome_iff, Option.isSome_iff_ne_none]

theorem covered_opWrite_iff (hr : Rest g vol) (hcur : Current g vol.disk node)
    (hcov : Covered vol.disk node.inode) (hoff : off < 2 ^ 64)
    (h : res = vol.opWrite node off data) :
    Covered res.1.disk res.2.1.inode ↔ GapMapped g vol node.inode off data := by
  generalize hlp : writeLoop off data data.length vol node.inode 0 false = lp
  have hw := hr.opWrite hcur.bound hcur.agrees off data hlp.symm h
  have hm := hcur.mid hr
  have hbefore := (covered_iff_byteAt _ _).mp hcov
  have hsome : ∀ {x}, byteAt vol.disk node.inode x ≠ none ↔
      blockAt vol.disk node.inode (x / 4096) ≠ 0 := by
    intro x
    rw [← byteAt_isSome_iff, Option.isSome_iff_ne_none]
  rw [covered_iff_byteAt]
  simp only [hw.byteAt_eq hr hcur hlp.symm]
  by_cases hfirst : data ≠ [] ∧ (blockAt vol.disk node.inode (off / 4096) ≠ 0 ∨
      nextLeaf g vol node.inode (off / 4096) ≠ 0)
  · obtain ⟨hdata, hblk⟩ := hfirst
    obtain ⟨hpos, -⟩ := hm.writeLoop_first hr.idle false hdata hblk hlp.symm
    have hmax := lt_of_blockAt_or hblk
    have hbytes := hm.writeLoop_bytes off data data.length hr.idle false (Nat.zero_le _) (by omega)
      (by omega) hlp.symm
    have hsize : res.2.1.inode.size.toNat = max node.inode.size.toNat (off + lp.2.2.1) := by
      rw [hw.size, hw.count, grown_size hbytes.fits]
    have hkept : ∀ x, byteAt vol.disk node.inode x ≠ none →
        ¬ (off + 0 ≤ x ∧ x < off + lp.2.2.1) → byteAt lp.1.disk lp.2.1 x ≠ none := by
      intro x hne hx
      obtain ⟨b, hb⟩ := Option.ne_none_iff_exists'.mp hne
      rw [hbytes.kept x b hx hb]
      simp
    rw [hsize]
    constructor
    · intro hcov'
      by_cases hle : off ≤ node.inode.size.toNat
      · exact .inl hle
      refine .inr fun x hx hx' => ?_
      by_cases h0 : blockAt vol.disk node.inode (x / 4096) = 0
      · right
        have hnone : byteAt vol.disk node.inode x = none := if_pos h0
        have hsame : x / 4096 = off / 4096 := by
          by_contra hne
          exact hcov' x (by omega) (hm.writeLoop_below off data data.length hr.idle false
            (by omega) hlp.symm (by omega) hnone)
        rw [hsame] at h0
        exact ⟨hsame, hdata, hblk.resolve_left (not_not.mpr h0)⟩
      · exact .inl h0
    · intro hgap x hx
      by_cases hin : off + 0 ≤ x ∧ x < off + lp.2.2.1
      · rw [hbytes.written x hin.1 hin.2]
        simp
      by_cases hlt : x < node.inode.size.toNat
      · exact hkept x (hbefore x hlt) hin
      rcases hgap.resolve_left (by omega) x (by omega) (by omega) with h0 | ⟨hsame, -, -⟩
      · exact hkept x (hsome.mpr h0) hin
      have hoff' := hbytes.written off (by omega) (by omega)
      rw [byteAt_of_ne (hsame ▸ blockAt_ne_of_byteAt hoff')]
      simp
  · -- Nothing is written, but the size grows to the offset.
    have hzero : lp.2.2.1 = 0 := by
      by_cases hdata : data = []
      · rw [← hlp, hdata]
        rfl
      rw [not_and, not_or, not_not, not_not] at hfirst
      obtain ⟨h0, hleaf⟩ := hfirst hdata
      exact hm.writeLoop_stuck hr.idle hoff hlp.symm h0 fun _ => hleaf
    have hsize : res.2.1.inode.size.toNat = max node.inode.size.toNat off := by
      rw [hw.size, hw.count, hzero, Nat.add_zero, Nat.mod_eq_of_lt hoff]
      split_ifs with hgrow
      · rw [UInt64.toNat_ofNat_of_lt' hoff]
        omega
      · omega
    simp only [hm.writeLoop_zero hr.idle hoff hlp.symm hzero]
    rw [hsize]
    constructor
    · intro hcov'
      exact .inr fun x _ hx => .inl (hsome.mp (hcov' x (by omega)))
    intro hgap x hx
    by_cases hlt : x < node.inode.size.toNat
    · exact hbefore x hlt
    rcases hgap.resolve_left (by omega) x (by omega) (by omega) with h0 | ⟨-, hdata, hleaf⟩
    · exact hsome.mpr h0
    · exact absurd ⟨hdata, .inr hleaf⟩ hfirst

def HashValid (vol : Volume) (i : Inode) : Prop :=
  (i.blockHash = 0 ∧ i.size = 0) ∨ i.blockHash = hashOf (vol.hashInput i)

structure HashSane (g : Superblock) (vol : Volume) (node : Node) : Prop where
  same : (inodeTable g vol.disk node.inodeNum).blockHash = node.inode.blockHash
  value : HashValid vol node.inode

theorem Rest.appendProv_hash {n : ℕ} {i : Inode} (hr : Rest g vol) (hn : n < 4096)
    (hi : ∀ r, i.root r = (inodeTable g vol.disk n).root r)
    (hsame : (inodeTable g vol.disk n).blockHash = i.blockHash) (op : UInt8) (pid : UInt32)
    (capUpper fileOffset length : UInt64) {p : Volume × Inode}
    (h : p = vol.appendProv n i op pid capUpper fileOffset length) :
    (inodeTable g p.1.disk n).blockHash = p.2.blockHash ∧ p.2.blockHash = i.blockHash := by
  rcases (hr.appendProv hn hi op pid capUpper fileOffset length h).2 with rfl | ⟨hp, htable⟩
  · exact ⟨hsame, rfl⟩
  rw [htable, hp]
  exact ⟨rfl, rfl⟩

theorem grownInode_unwritten {i : Inode} {written : ℕ} {now : UInt64} {dirty : Bool}
    (h : (grownInode i off written now dirty).2 = false) : written = 0 := by
  unfold grownInode at h
  simp only [Bool.or_eq_false_iff, decide_eq_false_iff_not] at h
  omega

theorem HashSane.opWrite (hs : HashSane g vol node) (hr : Rest g vol)
    (hcur : Current g vol.disk node) (hoff : off < 2 ^ 64)
    (h : res = vol.opWrite node off data) : HashSane g res.1 res.2.1 := by
  generalize hlp : writeLoop off data data.length vol node.inode 0 false = lp
  have hbyte := (hr.opWrite hcur.bound hcur.agrees off data hlp.symm h).byteAt_eq hr hcur hlp.symm
  have hR := hcur.agrees.withInode_eq
  have hm : Mid g (withInode (diskRoots g vol.disk) node.inodeNum node.inode) vol :=
    hR.symm ▸ hr.mid
  obtain ⟨hloop, hsame⟩ := hm.writeLoop off data _ hr.idle 0 false hlp.symm
  unfold Volume.opWrite at h
  rw [hlp] at h
  dsimp only at h
  have hroot := grownInode_root lp.2.1 off lp.2.2.1 lp.1.auditTotal lp.2.2.2
  generalize hgr : grownInode lp.2.1 off lp.2.2.1 lp.1.auditTotal lp.2.2.2 = gr at *
  cases hdirty : gr.2 with
  | false =>
    rw [hdirty] at h
    simp only [Bool.false_eq_true, if_false] at h
    generalize hp : lp.1.appendProv _ _ _ _ _ _ _ = p at h
    have hzero := grownInode_unwritten (hgr ▸ hdirty)
    obtain ⟨hclean, hgr'⟩ := grownInode_clean (hgr ▸ hdirty)
    have heq := (hsame hclean).2
    rw [hgr, heq] at hgr'
    rw [heq] at hloop
    obtain ⟨hstep, htable⟩ := hloop.fileStep hr hR
    rw [hgr'] at hp
    have hagrees : Agrees node.inode (inodeTable g lp.1.disk node.inodeNum) := by
      rw [htable]
      exact hcur.agrees
    obtain ⟨-, -, hsize⟩ := hstep.rest.appendProv_agrees hcur.bound hagrees _ _ _ _ _ hp.symm
    obtain ⟨hdisk, hhash⟩ := hstep.rest.appendProv_hash hcur.bound hagrees.root
      (by rw [htable]; exact hs.same) _ _ _ _ _ hp.symm
    rw [h] at hbyte ⊢
    have hinput : p.1.hashInput p.2 = vol.hashInput node.inode :=
      hashInput_congr hsize.size fun x _ =>
        (hbyte x).trans (hm.writeLoop_zero hr.idle hoff hlp.symm hzero x)
    refine ⟨hdisk, ?_⟩
    unfold HashValid
    dsimp only
    rw [hhash, hinput, hsize.size]
    exact hs.value
  | true =>
    rw [hdirty] at h
    simp only [if_true] at h
    generalize hhash : lp.1.computeWholeFileHash gr.1 = hash at h
    have hroot' : ∀ r, ({ gr.1 with blockHash := hash } : Inode).root r = lp.2.1.root r :=
      fun r => (by cases r <;> rfl : _ = gr.1.root r).trans (hroot r)
    obtain ⟨hstep, htable, -⟩ := hloop.commit hr hR hcur.bound hroot'
    generalize (lp.1.journalBegin.writeInode _ _).journalCommit = vc at *
    generalize hp : vc.appendProv _ _ _ _ _ _ _ = p at h
    have hagrees : Agrees ({ gr.1 with blockHash := hash } : Inode)
        (inodeTable g vc.disk node.inodeNum) := by
      rw [htable]
      exact Agrees.refl _
    obtain ⟨-, -, hsize⟩ := hstep.rest.appendProv_agrees hcur.bound hagrees _ _ _ _ _ hp.symm
    obtain ⟨hdisk, hsame⟩ := hstep.rest.appendProv_hash hcur.bound hagrees.root
      (by rw [htable]) _ _ _ _ _ hp.symm
    rw [h] at hbyte ⊢
    have hinput : p.1.hashInput p.2 = lp.1.hashInput gr.1 := by
      refine hashInput_congr hsize.size fun x _ => (hbyte x).trans ?_
      unfold byteAt
      rw [blockAt_congr_root hroot]
    refine ⟨hdisk, .inr ?_⟩
    dsimp only
    rw [hsame, hinput, ← computeWholeFileHash_eq, hhash]

end Write

structure Hashed (g : Superblock) (vol : Volume) (n : ℕ) : Prop where
  covered : Covered vol.disk (inodeTable g vol.disk n)
  value : HashValid vol (inodeTable g vol.disk n)

section Frame
variable {g : Superblock} {vol vol' : Volume} {n m : ℕ} {i i' : Inode} {node : Node}

theorem covered_congr (hsize : i'.size = i.size)
    (h : ∀ x, byteAt vol'.disk i' x = byteAt vol.disk i x) :
    Covered vol'.disk i' ↔ Covered vol.disk i := by
  rw [covered_iff_byteAt, covered_iff_byteAt, hsize]
  simp only [h]

theorem hashValid_congr (hsize : i'.size = i.size) (hhash : i'.blockHash = i.blockHash)
    (h : ∀ x, byteAt vol'.disk i' x = byteAt vol.disk i x) :
    HashValid vol' i' ↔ HashValid vol i := by
  unfold HashValid
  rw [hashInput_congr hsize fun x _ => h x, hsize, hhash]

theorem byteAt_congr_root (hroot : ∀ r, i'.root r = i.root r) (d : ℕ → Block) (x : ℕ) :
    byteAt d i' x = byteAt d i x := by
  unfold byteAt
  rw [blockAt_congr_root hroot]

theorem hashed_iff (hcur : Current g vol.disk node)
    (hsame : (inodeTable g vol.disk node.inodeNum).blockHash = node.inode.blockHash) :
    Hashed g vol node.inodeNum ↔ Covered vol.disk node.inode ∧ HashValid vol node.inode := by
  have hbyte := byteAt_congr_root (fun r => (hcur.agrees.root r).symm) vol.disk
  rw [← covered_congr hcur.agrees.size.symm hbyte,
    ← hashValid_congr hcur.agrees.size.symm hsame hbyte]
  exact ⟨fun h => ⟨h.covered, h.value⟩, fun h => ⟨h.1, h.2⟩⟩

theorem hashed_of_empty (hsize : (inodeTable g vol.disk n).size = 0)
    (hhash : (inodeTable g vol.disk n).blockHash = 0) : Hashed g vol n := by
  refine ⟨fun x hx => ?_, .inl ⟨hhash, hsize⟩⟩
  rw [hsize] at hx
  cases hx

theorem Step.hashed {S : Set ℕ} (h : Step g S vol vol') (hn : n ∉ S) (hh : Hashed g vol n) :
    Hashed g vol' n := by
  have htable := h.table n hn
  have hbyte : ∀ x, byteAt vol'.disk (inodeTable g vol'.disk n) x =
      byteAt vol.disk (inodeTable g vol.disk n) x := by
    intro x
    refine byteAt_congr (congrFun (h.blockAt_eq hn) _) fun h0 => ?_
    have hfb := lt_of_blockAt h0
    rw [blockAt_eq_siteRef _ hfb] at h0 ⊢
    exact h.blocks _ hn h0
  exact ⟨(covered_congr (by rw [htable]) hbyte).mpr hh.covered,
    (hashValid_congr (by rw [htable]) (by rw [htable]) hbyte).mpr hh.value⟩

theorem InodeStep.hashed (h : InodeStep g m vol vol') (hr : Rest g vol)
    (hroot : ∀ r, (inodeTable g vol'.disk m).root r = (inodeTable g vol.disk m).root r)
    (hsize : (inodeTable g vol'.disk m).size = (inodeTable g vol.disk m).size)
    (hhash : (inodeTable g vol'.disk m).blockHash = (inodeTable g vol.disk m).blockHash)
    (hh : Hashed g vol n) : Hashed g vol' n := by
  by_cases hnm : n = m
  · subst hnm
    have howned := hr.mid.owned
    rw [view_of_idle hr.idle] at howned
    have hbyte := byteAt_congr_data (i := inodeTable g vol.disk n) howned (fun _ => rfl) hroot
      h.data
    exact ⟨(covered_congr hsize hbyte).mpr hh.covered,
      (hashValid_congr hsize hhash hbyte).mpr hh.value⟩
  · exact (h.fileStep hr).hashed hnm hh

end Frame

section Open
variable {g : Superblock} {vol : Volume} {node : Node} {n : ℕ}

theorem opOpen_warns_iff (hr : Rest g vol) (hn : node.inodeNum < 4096) :
    (vol.opOpen node).2.2 ↔ (inodeTable g vol.disk node.inodeNum).blockHash ≠ 0 ∧
      hashOf (vol.hashInput (inodeTable g vol.disk node.inodeNum)) ≠
        (inodeTable g vol.disk node.inodeNum).blockHash := by
  unfold opOpen
  dsimp only
  rw [hr.readInode hn, computeWholeFileHash_eq]
  simp [bne_iff_ne]

theorem Hashed.opOpen (hh : Hashed g vol node.inodeNum) (hr : Rest g vol)
    (hn : node.inodeNum < 4096) : (vol.opOpen node).2.2 = false := by
  rw [← Bool.not_eq_true, opOpen_warns_iff hr hn]
  rintro ⟨h0, hne⟩
  rcases hh.value with ⟨hzero, -⟩ | hvalue
  · exact h0 hzero
  · exact hne hvalue.symm

/-- The device with one byte of the file of inode `i` changed. -/
def Volume.flip (vol : Volume) (i : Inode) (x : ℕ) (v : UInt8) : Volume :=
  vol.writeBlock (blockAt vol.disk i (x / 4096))
    ((vol.disk (blockAt vol.disk i (x / 4096))).patch (x % 4096) 1 fun _ => v)

theorem Rest.flip (hr : Rest g vol) {x : ℕ}
    (h0 : blockAt vol.disk (inodeTable g vol.disk n) (x / 4096) ≠ 0) (v : UInt8) {vol' : Volume}
    (h : vol' = vol.flip (inodeTable g vol.disk n) x v) :
    Rest g vol' ∧ inodeTable g vol'.disk = inodeTable g vol.disk ∧
      ∀ y, byteAt vol'.disk (inodeTable g vol.disk n) y =
        if y = x then some v else byteAt vol.disk (inodeTable g vol.disk n) y := by
  have hR := (Agrees.refl (inodeTable g vol.disk n)).withInode_eq
  have hm : Mid g (withInode (diskRoots g vol.disk) n (inodeTable g vol.disk n)) vol := by
    rw [hR]
    exact hr.mid
  unfold Volume.flip at h
  generalize hbuf : ((vol.disk (blockAt vol.disk (inodeTable g vol.disk n) (x / 4096))).patch
    (x % 4096) 1 fun _ => v) = buf at h
  obtain ⟨hloop, -⟩ := hm.writeData hr.idle h0 buf
  rw [← h] at hloop
  obtain ⟨hstep, htable⟩ := hloop.fileStep hr hR
  refine ⟨hstep.rest, htable, fun y => ?_⟩
  rw [h, hm.byteAt_writeData hr.idle h0, ← hbuf]
  by_cases hy : y / 4096 = x / 4096
  · rw [if_pos hy, byteAt_of_ne (by rw [hy]; exact h0), hy, Buf.byte_patch]
    by_cases hxy : y = x
    · rw [if_pos (by omega), if_pos hxy]
    · rw [if_neg (by omega), if_neg hxy]
  · rw [if_neg hy, if_neg fun hxy => hy (by rw [hxy])]

theorem Hashed.flip (hh : Hashed g vol n) (hr : Rest g vol) {x : ℕ}
    (hx : x < (inodeTable g vol.disk n).size.toNat) {v : UInt8}
    (hv : byteAt vol.disk (inodeTable g vol.disk n) x ≠ some v) {vol' : Volume}
    (h : vol' = vol.flip (inodeTable g vol.disk n) x v) :
    vol'.hashInput (inodeTable g vol.disk n) ≠ vol.hashInput (inodeTable g vol.disk n) ∧
      ∀ node : Node, node.inodeNum = n → n < 4096 → ((vol'.opOpen node).2.2 ↔
        hashOf (vol.hashInput (inodeTable g vol.disk n)) ≠ 0 ∧
          hashOf (vol'.hashInput (inodeTable g vol.disk n)) ≠
            hashOf (vol.hashInput (inodeTable g vol.disk n))) := by
  obtain ⟨hr', htable, hbyte⟩ := hr.flip (hh.covered x hx) v h
  have hcov' : Covered vol'.disk (inodeTable g vol.disk n) := by
    rw [covered_iff_byteAt]
    intro y hy
    rw [hbyte]
    split_ifs
    · simp
    · exact (covered_iff_byteAt _ _).mp hh.covered y hy
  refine ⟨fun he => ?_, fun node hnode hn => ?_⟩
  · have hold := (hashCovers_iff.mpr hh.covered).bytes x _ hx (byteAt_of_ne (hh.covered x hx))
    have hnew := (hashCovers_iff.mpr hcov').bytes x v hx (by rw [hbyte, if_pos rfl])
    rw [he, hold] at hnew
    exact hv ((byteAt_of_ne (hh.covered x hx)).trans hnew)
  rw [opOpen_warns_iff hr' (hnode ▸ hn), hnode, htable]
  rcases hh.value with ⟨-, hzero⟩ | hvalue
  · rw [hzero] at hx
    cases hx
  · rw [hvalue]

end Open

end Exploidus.Exfs
