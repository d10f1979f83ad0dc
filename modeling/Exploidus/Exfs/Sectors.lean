import Exploidus.Exfs.Layout
import Exploidus.Lib.SlotCache

/-! Block I/O on the sectors of a device, with the block cache in front of it. A sector write
that fails leaves its sector as it was, and the sectors before it stay written; reads do not
fail. -/
namespace Exploidus.Exfs
open ByteLayout SlotCache Function

/-- `BLOCKDEV_SECTOR_SIZE` bytes. -/
abbrev Sector := Buf 512

/-- Sector `s` of a block in memory. -/
def sectorOf (buf : Block) (s : ℕ) : Sector := fun i => buf.byte (s * 512 + i.val)

theorem byte_sectorOf (buf : Block) (s : ℕ) {i : ℕ} (h : i < 512) :
    (sectorOf buf s).byte i = buf.byte (s * 512 + i) := dif_pos h

/-- The part of `exfs_volume_t` that block I/O uses, with the device under it. The cache is
`none` when it could not be allocated. -/
structure Drive where
  devLbaBase : ℕ
  sectors : ℕ → Sector
  cache : Option (Cache 63 ℕ Block)

namespace Drive

/-- The address of sector `s` of a block, in 32-bit arithmetic. -/
def lba (v : Drive) (b s : ℕ) : ℕ :=
  ((v.devLbaBase + b * 8 % 2 ^ 32) % 2 ^ 32 + s) % 2 ^ 32

def deviceBlock (v : Drive) (b : ℕ) : Block :=
  fun i => (v.sectors (v.lba b (i.val / 512))).byte (i.val % 512)

/-- `exfs_read_block`. -/
def readBlock (v : Drive) (b : ℕ) : Drive × Block :=
  match v.cache with
  | none => (v, v.deviceBlock b)
  | some c =>
    match c.lookup b with
    | some data => (v, data)
    | none => ({ v with cache := some (c.insert b (v.deviceBlock b)) }, v.deviceBlock b)

/-- The sector loop of `exfs_write_block` from sector `s` on; `ok` says which sector writes
succeed. -/
def writeSectors (b : ℕ) (buf : Block) (ok : ℕ → Bool) : ℕ → ℕ → Drive → Drive × Bool
  | 0, _, v => (v, true)
  | count + 1, s, v =>
    if ok s then
      writeSectors b buf ok count (s + 1)
        { v with sectors := update v.sectors (v.lba b s) (sectorOf buf s) }
    else (v, false)

/-- `exfs_write_block`. -/
def writeBlock (v : Drive) (b : ℕ) (buf : Block) (ok : ℕ → Bool) : Drive × Bool :=
  match writeSectors b buf ok 8 0 v with
  | (v, false) => (v, false)
  | (v, true) => ({ v with cache := v.cache.map fun c => c.store b buf }, true)

end Drive

/-- A block of which only the sectors before the first failure are new. -/
def torn (ok : ℕ → Bool) (buf old : Block) : Block :=
  fun i => if ∀ s, s ≤ i.val / 512 → ok s = true then buf i else old i

theorem torn_of_ok {ok : ℕ → Bool} (h : ∀ s < 8, ok s) (buf old : Block) :
    torn ok buf old = buf := by
  funext i
  have hi := i.isLt
  exact if_pos fun s hs => h s (by omega)

theorem torn_of_fail {ok : ℕ → Bool} (h : ok 0 = false) (buf old : Block) :
    torn ok buf old = old := by
  funext i
  exact if_neg fun hok => Bool.false_ne_true (h.symm.trans (hok 0 (Nat.zero_le _)))

namespace Drive
variable {v : Drive} {b : ℕ} {buf : Block} {ok : ℕ → Bool}

theorem lba_inj {b' s s' : ℕ} (hb : b < 2 ^ 29) (hb' : b' < 2 ^ 29) (hs : s < 8) (hs' : s' < 8)
    (h : v.lba b s = v.lba b' s') : b = b' ∧ s = s' := by
  unfold lba at h
  omega

theorem writeSectors_snd (b : ℕ) (buf : Block) (ok : ℕ → Bool) (count s : ℕ) (v : Drive) :
    (writeSectors b buf ok count s v).2 ↔ ∀ t, s ≤ t → t < s + count → ok t := by
  induction count generalizing s v with
  | zero => simp only [writeSectors, true_iff]; omega
  | succ count ih =>
    rw [writeSectors]
    split_ifs with hs
    · rw [ih]
      refine ⟨fun h t h1 h2 => ?_, fun h t h1 h2 => h t (by omega) (by omega)⟩
      rcases Nat.lt_or_ge s t with hlt | hge
      · exact h t hlt (by omega)
      · rwa [Nat.le_antisymm hge h1]
    · simp only [false_iff]
      exact fun h => hs (h s le_rfl (by omega))

theorem writeSectors_eq (b : ℕ) (buf : Block) (ok : ℕ → Bool) (count s : ℕ) (v : Drive) : ∃ m,
    (writeSectors b buf ok count s v).1 = { v with sectors := m } := by
  induction count generalizing s v with
  | zero => exact ⟨v.sectors, rfl⟩
  | succ count ih =>
    rw [writeSectors]
    split_ifs
    · obtain ⟨m, hm⟩ := ih (s + 1)
        { v with sectors := update v.sectors (v.lba b s) (sectorOf buf s) }
      exact ⟨m, hm⟩
    · exact ⟨v.sectors, rfl⟩

theorem writeSectors_sectors (hb : b < 2 ^ 29) {b' t : ℕ} (hb' : b' < 2 ^ 29) (ht : t < 8)
    (count s : ℕ) (v : Drive) (hs : s + count ≤ 8) :
    (writeSectors b buf ok count s v).1.sectors (v.lba b' t) =
      if b' = b ∧ s ≤ t ∧ t < s + count ∧ ∀ u, s ≤ u → u ≤ t → ok u then sectorOf buf t
      else v.sectors (v.lba b' t) := by
  induction count generalizing s v with
  | zero => rw [if_neg (by omega)]; rfl
  | succ count ih =>
    rw [writeSectors]
    split_ifs with hok hin hin
    · obtain ⟨rfl, h1, h2, h3⟩ := hin
      have hrec := ih (s + 1) { v with
        sectors := update v.sectors (v.lba b' s) (sectorOf buf s) } (by omega)
      refine hrec.trans ?_
      rcases Nat.eq_or_lt_of_le h1 with rfl | hlt
      · rw [if_neg (by omega)]
        exact update_self ..
      · exact if_pos ⟨rfl, hlt, by omega, fun u hu => h3 u (by omega)⟩
    · have hrec := ih (s + 1) { v with
        sectors := update v.sectors (v.lba b s) (sectorOf buf s) } (by omega)
      refine hrec.trans ?_
      rw [if_neg]
      · refine update_of_ne (fun he => hin ?_) _ _
        obtain ⟨rfl, rfl⟩ := lba_inj hb' hb ht (by omega) he
        exact ⟨rfl, le_rfl, by omega, fun u h1 h2 => by rwa [Nat.le_antisymm h2 h1]⟩
      rintro ⟨rfl, h1, h2, h3⟩
      refine hin ⟨rfl, by omega, by omega, fun u hu hut => ?_⟩
      rcases Nat.eq_or_lt_of_le hu with rfl | hlt
      · exact hok
      · exact h3 u hlt hut
    · exact absurd (hin.2.2.2 s le_rfl hin.2.1) hok
    · rfl

theorem deviceBlock_writeSectors (v : Drive) (buf : Block) (ok : ℕ → Bool) (hb : b < 2 ^ 29)
    {b' : ℕ} (hb' : b' < 2 ^ 29) :
    (writeSectors b buf ok 8 0 v).1.deviceBlock b' =
      update v.deviceBlock b (torn ok buf (v.deviceBlock b)) b' := by
  have hlba : ∀ s, (writeSectors b buf ok 8 0 v).1.lba b' s = v.lba b' s := by
    obtain ⟨m, hm⟩ := writeSectors_eq b buf ok 8 0 v
    intro s
    rw [hm]
    rfl
  funext i
  have hi := i.isLt
  have hsplit : i.val / 512 * 512 + i.val % 512 = i.val := by omega
  rw [deviceBlock, hlba, writeSectors_sectors hb hb' (by omega) 8 0 v le_rfl]
  by_cases he : b' = b
  · subst he
    rw [update_self, torn]
    by_cases hok : ∀ s ≤ i.val / 512, ok s
    · rw [if_pos hok, if_pos ⟨rfl, Nat.zero_le _, by omega, fun u _ hu => hok u hu⟩,
        byte_sectorOf _ _ (Nat.mod_lt _ (by decide)), hsplit, Buf.byte, dif_pos hi]
    · rw [if_neg hok, if_neg fun h => hok fun u hu => h.2.2.2 u (Nat.zero_le _) hu, deviceBlock]
  · rw [update_of_ne he, if_neg fun h => he h.1, deviceBlock]

theorem deviceBlock_writeBlock (v : Drive) (buf : Block) (ok : ℕ → Bool) (hb : b < 2 ^ 29)
    {b' : ℕ} (hb' : b' < 2 ^ 29) :
    (v.writeBlock b buf ok).1.deviceBlock b' =
      update v.deviceBlock b (torn ok buf (v.deviceBlock b)) b' := by
  rw [← deviceBlock_writeSectors v buf ok hb hb', writeBlock]
  rcases writeSectors b buf ok 8 0 v with ⟨v', _ | _⟩ <;> rfl

theorem writeBlock_snd : (v.writeBlock b buf ok).2 ↔ ∀ s < 8, ok s := by
  have h := writeSectors_snd b buf ok 8 0 v
  simp only [Nat.zero_le, forall_const, Nat.zero_add] at h
  rw [writeBlock, ← h]
  generalize writeSectors b buf ok 8 0 v = r
  rcases r with ⟨v', _ | _⟩ <;> rfl

theorem writeBlock_cache (v : Drive) (b : ℕ) (buf : Block) (ok : ℕ → Bool) :
    (v.writeBlock b buf ok).1.cache =
    if (v.writeBlock b buf ok).2 then v.cache.map fun c => c.store b buf else v.cache := by
  obtain ⟨m, hm⟩ := writeSectors_eq b buf ok 8 0 v
  unfold writeBlock
  generalize writeSectors b buf ok 8 0 v = r at hm
  rcases r with ⟨v', done⟩
  have hc : v'.cache = v.cache := by rw [show v' = _ from hm]
  cases done
  · exact hc
  · exact congrArg (Option.map fun c => c.store b buf) hc

theorem deviceBlock_readBlock (v : Drive) (b : ℕ) :
    (v.readBlock b).1.deviceBlock = v.deviceBlock := by
  unfold readBlock
  split
  · rfl
  · split <;> rfl

end Drive

end Exploidus.Exfs
