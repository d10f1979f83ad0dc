import Exploidus.Exfs.Directory
import Exploidus.Exfs.FileSpec

/-! What the scans of the directory operations find, in terms of the entries a directory holds. -/
namespace Exploidus.Exfs
open ByteLayout

/-- Entry `k` of logical block `fb` of the directory with inode `i`, blank when there is none. -/
def slotAt (d : ℕ → Block) (i : Inode) (fb k : ℕ) : Dirent :=
  if blockAt d i fb ≠ 0 ∧ k < 15 then direntAt (d (blockAt d i fb)) k else Dirent.blank

def Compact (d : ℕ → Block) (i : Inode) : Prop :=
  ∀ fb, blockAt d i (fb + 1) ≠ 0 → blockAt d i fb ≠ 0

theorem Compact.below {d : ℕ → Block} {i : Inode} (h : Compact d i) {fb fb' : ℕ} (hle : fb ≤ fb')
    (h0 : blockAt d i fb' ≠ 0) : blockAt d i fb ≠ 0 := by
  induction fb', hle using Nat.le_induction with
  | base => exact h0
  | succ m _ ih => exact ih (h m h0)

namespace Dirent

@[simp] theorem live_blank : Dirent.blank.live = false := rfl

theorem length_text (e : Dirent) : e.text.length = e.nameLen.toNat := by simp [text]

theorem hasName_iff (e : Dirent) {name : List UInt8} (h : name.length ≤ 255) :
    e.hasName name ↔ e.text = name := by
  have hlen : (UInt16.ofNat name.length).toNat = name.length :=
    UInt16.toNat_ofNat_of_lt (by rw [UInt16.size]; omega)
  unfold hasName
  rw [Bool.and_eq_true, beq_iff_eq, beq_iff_eq]
  constructor
  · rintro ⟨hl, ht⟩
    rw [ht, hl, hlen, List.take_length]
  intro ht
  have hl : e.nameLen.toNat = name.length := by rw [← length_text, ht]
  refine ⟨UInt16.toNat_inj.mp (hl.trans hlen.symm), ?_⟩
  rw [hl, List.take_length, ht]

theorem text_named (ino : ℕ) (fileType : UInt8) {name : List UInt8} (h : name.length ≤ 255) :
    (named ino fileType name).text = name := by
  have hlen : (UInt16.ofNat name.length).toNat = name.length :=
    UInt16.toNat_ofNat_of_lt (by rw [UInt16.size]; omega)
  apply List.ext_getElem
  · simp [length_text, named, hlen]
  intro k hk hk'
  have hk256 : k < 256 := by omega
  simp [text, named, Buf.byte, hk256, hk']

theorem inodeNum_named {ino : ℕ} (h : ino < 4096) (fileType : UInt8) (name : List UInt8) :
    (named ino fileType name).inodeNum.toNat = ino := by
  exact UInt64.toNat_ofNat_of_lt (by rw [UInt64.size]; omega)

theorem live_iff (e : Dirent) : e.live ↔ e.inodeNum.toNat ≠ 0 := by
  rw [live, bne_iff_ne, ne_eq, ne_eq, ← UInt64.toNat_inj]
  rfl

end Dirent

section
variable {p : Dirent → Bool} {buf : Block}

theorem findSlot_some {count k j : ℕ} (h : findSlot p buf count k = some j) :
    k ≤ j ∧ j < k + count ∧ p (direntAt buf j) := by
  induction count generalizing k with
  | zero => exact absurd h (by simp [findSlot])
  | succ count ih =>
    rw [findSlot] at h
    split_ifs at h with hp
    · cases h
      exact ⟨le_rfl, by omega, hp⟩
    · obtain ⟨hle, hlt, hj⟩ := ih h
      exact ⟨by omega, by omega, hj⟩

theorem findSlot_none {count k : ℕ} (h : findSlot p buf count k = none) {j : ℕ} (hlo : k ≤ j)
    (hhi : j < k + count) : p (direntAt buf j) = false := by
  induction count generalizing k with
  | zero => omega
  | succ count ih =>
    rw [findSlot] at h
    split_ifs at h with hp
    rcases eq_or_lt_of_le hlo with rfl | hlt
    · simpa using hp
    · exact ih h (by omega) (by omega)

end

section
variable {d : ℕ → Block} {i : Inode} {fb k : ℕ}

theorem slotAt_of_block (h0 : blockAt d i fb ≠ 0) (hk : k < 15) :
    slotAt d i fb k = direntAt (d (blockAt d i fb)) k := if_pos ⟨h0, hk⟩

theorem slotAt_live (h : (slotAt d i fb k).live) : blockAt d i fb ≠ 0 ∧ k < 15 := by
  by_contra hne
  rw [slotAt, if_neg hne] at h
  exact absurd h (by simp)

theorem slotAt_unmapped (h0 : blockAt d i fb = 0) : slotAt d i fb k = Dirent.blank :=
  if_neg fun h => h.1 h0

end

/-- Directory `i` has `fb` blocks and no empty slot. -/
def FullDir (d : ℕ → Block) (i : Inode) (fb : ℕ) : Prop :=
  blockAt d i fb = 0 ∧ ∀ f, f < fb → blockAt d i f ≠ 0 ∧ ∀ k, k < 15 → (slotAt d i f k).live = true

namespace Volume
variable {vol : Volume} {i : Inode} {p : Dirent → Bool}

theorem scanDir_some {fuel fb : ℕ} {blk k : ℕ} {e : Dirent}
    (h : vol.scanDir i p fuel fb = some (blk, k, e)) :
    ∃ fb', blk = blockAt vol.disk i fb' ∧ blk ≠ 0 ∧ k < 15 ∧ e = slotAt vol.disk i fb' k ∧
      p e := by
  induction fuel generalizing fb with
  | zero => exact absurd h (by simp [scanDir])
  | succ fuel ih =>
    rw [scanDir, blockOf_eq] at h
    split_ifs at h with h0
    cases hs : findSlot p (vol.readBlock (blockAt vol.disk i fb)) 15 0 with
    | none =>
      rw [hs] at h
      exact ih h
    | some j =>
      rw [hs] at h
      cases h
      obtain ⟨-, hlt, hp⟩ := findSlot_some hs
      exact ⟨fb, rfl, h0, by omega, (slotAt_of_block h0 (by omega)).symm, hp⟩

theorem scanDir_none (hc : Compact vol.disk i) {fuel fb : ℕ} (hf : maxDirBlocks ≤ fb + fuel)
    (h : vol.scanDir i p fuel fb = none) {fb' k : ℕ} (hle : fb ≤ fb')
    (h0 : blockAt vol.disk i fb' ≠ 0) (hk : k < 15) : p (slotAt vol.disk i fb' k) = false := by
  induction fuel generalizing fb with
  | zero => exact absurd (if_neg (by omega)) h0
  | succ fuel ih =>
    rw [scanDir, blockOf_eq, if_neg (hc.below hle h0)] at h
    cases hs : findSlot p (vol.readBlock (blockAt vol.disk i fb)) 15 0 with
    | some j =>
      rw [hs] at h
      exact absurd h (by simp)
    | none =>
      rw [hs] at h
      rcases eq_or_lt_of_le hle with rfl | hlt
      · rw [slotAt_of_block h0 hk]
        exact findSlot_none hs (by omega) (by omega)
      · exact ih (by omega) h hlt

/-- `findEntry` finds an entry with the name. -/
theorem findEntry_some {name : List UInt8} (hname : name.length ≤ 255) {blk k : ℕ} {e : Dirent}
    (h : vol.findEntry i name = some (blk, k, e)) :
    ∃ fb, blk = blockAt vol.disk i fb ∧ blk ≠ 0 ∧ k < 15 ∧ e = slotAt vol.disk i fb k ∧
      e.live ∧ e.text = name := by
  obtain ⟨fb, hblk, h0, hk, he, hp⟩ := scanDir_some h
  rw [Bool.and_eq_true, Dirent.hasName_iff e hname] at hp
  exact ⟨fb, hblk, h0, hk, he, hp⟩

theorem findEntry_none (hc : Compact vol.disk i) {name : List UInt8} (hname : name.length ≤ 255)
    (h : vol.findEntry i name = none) (fb k : ℕ) (hl : (slotAt vol.disk i fb k).live) :
    (slotAt vol.disk i fb k).text ≠ name := by
  intro ht
  obtain ⟨h0, hk⟩ := slotAt_live hl
  have := scanDir_none hc (by omega) h (Nat.zero_le fb) h0 hk
  rw [hl, (Dirent.hasName_iff _ hname).mpr ht] at this
  exact absurd this (by decide)

theorem dirIsEmpty_spec (hc : Compact vol.disk i) (h : vol.dirIsEmpty i) (fb k : ℕ) :
    (slotAt vol.disk i fb k).live = false := by
  by_contra hl
  rw [Bool.not_eq_false] at hl
  obtain ⟨h0, hk⟩ := slotAt_live hl
  have := scanDir_none hc (by omega) (Option.isNone_iff_eq_none.mp h) (Nat.zero_le fb) h0 hk
  rw [hl] at this
  exact absurd this (by decide)

theorem findRoom_spec {fuel fb : ℕ} (hlo : ∀ f < fb, blockAt vol.disk i f ≠ 0 ∧
      findSlot (fun e => !e.live) (vol.view (blockAt vol.disk i f)) 15 0 = none) :
    match vol.findRoom i fuel fb with
    | .block blk => ∃ f k, blk = blockAt vol.disk i f ∧ blk ≠ 0 ∧
        findSlot (fun e => !e.live) (vol.view blk) 15 0 = some k
    | .hole f => blockAt vol.disk i f = 0 ∧ ∀ f', f' < f → blockAt vol.disk i f' ≠ 0 ∧
        findSlot (fun e => !e.live) (vol.view (blockAt vol.disk i f')) 15 0 = none
    | .full => True := by
  induction fuel generalizing fb with
  | zero => trivial
  | succ fuel ih =>
    rw [findRoom, blockOf_eq]
    by_cases h0 : blockAt vol.disk i fb = 0
    · rw [if_pos h0]
      exact ⟨h0, hlo⟩
    rw [if_neg h0]
    cases hs : findSlot (fun e => !e.live) (vol.txnReadBlock (blockAt vol.disk i fb)) 15 0 with
    | some k => exact ⟨fb, k, rfl, h0, hs⟩
    | none =>
      refine ih fun f hf => ?_
      rcases Nat.lt_succ_iff_lt_or_eq.mp hf with hlt | rfl
      · exact hlo f hlt
      · exact ⟨h0, hs⟩

theorem findFreeInode_spec (count n : ℕ) : vol.findFreeInode count n = 0 ∨
    (vol.findFreeInode count n ≠ 0 ∧ n ≤ vol.findFreeInode count n ∧
      vol.findFreeInode count n < n + count ∧
      ¬ (vol.readInode (vol.findFreeInode count n)).inUse) := by
  induction count generalizing n with
  | zero => exact .inl rfl
  | succ count ih =>
    rw [findFreeInode]
    by_cases h : n ≠ 0 ∧ ¬ (vol.readInode n).inUse
    · rw [if_pos h]
      exact .inr ⟨h.1, le_rfl, by omega, h.2⟩
    rw [if_neg h]
    rcases ih (n + 1) with h0 | ⟨h0, hle, hlt, hfree⟩
    · exact .inl h0
    · exact .inr ⟨h0, by omega, by omega, hfree⟩

end Volume

end Exploidus.Exfs
