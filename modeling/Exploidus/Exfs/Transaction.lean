import Exploidus.Exfs.Journal
import Exploidus.Exfs.Alloc

/-! What an open transaction shows to its own reads, what staging changes, and what its commit
leaves on the device. -/
namespace Exploidus.Exfs
open WriteLog RedoLog Function List

namespace Volume

abbrev view (vol : Volume) : ℕ → Block := vol.txnReadBlock

variable {vol : Volume} {b : ℕ} {t : List (ℕ × Block)} {g : Superblock}

theorem view_of_idle (h : vol.jtxnActive = false) : vol.view = vol.disk := by
  funext b
  simp [view, txnReadBlock, h, readBlock]

structure Staging (g : Superblock) (vol : Volume) : Prop where
  jtxnData : vol.jtxnData = true
  nodup : (vol.jtxn.map Prod.fst).Nodup
  home : ∀ p ∈ vol.jtxn, InBody g p.1
  length_le : vol.jtxn.length ≤ 16

private theorem find_eq_none (h : t.find? (fun p => decide (p.1 = b)) = none) :
    ∀ p ∈ t, p.1 ≠ b := by
  intro p hp
  simpa using find?_eq_none.mp h p hp

theorem view_eq_applyWrites (hs : Staging g vol) (hactive : vol.jtxnActive) :
    vol.view = applyWrites vol.disk vol.jtxn := by
  funext b
  simp only [view, txnReadBlock, hactive, hs.jtxnData, Bool.and_self, if_true, staged]
  cases hf : vol.jtxn.find? (fun p => decide (p.1 = b)) with
  | none =>
    rw [applyWrites_of_forall_ne (find_eq_none hf)]
    rfl
  | some p =>
    have hb : p.1 = b := by simpa using find?_some hf
    rw [← hb, applyWrites_of_mem hs.nodup (mem_of_find?_eq_some hf)]
    rfl

theorem restage_eq_some {buf : Block} {t' : List (ℕ × Block)} (h : restage b buf t = some t') :
    t'.map Prod.fst = t.map Prod.fst := by
  induction t generalizing t' with
  | nil => simp [restage] at h
  | cons p t ih =>
    rw [restage] at h
    split_ifs at h with hp
    · obtain rfl := Option.some.inj h
      simp [hp]
    · obtain ⟨u, hu, rfl⟩ := Option.map_eq_some_iff.mp h
      simp [ih hu]

def inTxn (vol : Volume) : Bool := vol.jtxnActive && vol.jtxnData

/-- A metadata write of block `b` goes to the staging buffer and not to the device. -/
def stages (vol : Volume) (b : ℕ) : Bool :=
  vol.inTxn && ((vol.staged b).isSome || decide (vol.jtxn.length < 16))

private theorem restage_none_iff {b : ℕ} {buf : Block} {t : List (ℕ × Block)} :
    restage b buf t = none ↔ t.find? (fun p => decide (p.1 = b)) = none := by
  induction t with
  | nil => simp [restage]
  | cons p t ih =>
    by_cases hp : p.1 = b
    · simp [restage, hp]
    · simp [restage, hp, ih]

private theorem find_restage {b c : ℕ} {buf : Block} {t t' : List (ℕ × Block)}
    (h : restage b buf t = some t') :
    (t'.find? (fun p => decide (p.1 = c))).map Prod.snd =
      if c = b then some buf else (t.find? (fun p => decide (p.1 = c))).map Prod.snd := by
  induction t generalizing t' with
  | nil => cases h
  | cons p t ih =>
    rw [restage] at h
    by_cases hp : p.1 = b
    · rw [if_pos hp] at h
      cases h
      by_cases hc : c = b
      · simp [hc]
      have hcb : b ≠ c := fun he => hc he.symm
      simp [hc, hcb, hp]
    · rw [if_neg hp] at h
      obtain ⟨u, hu, rfl⟩ := Option.map_eq_some_iff.mp h
      by_cases hpc : p.1 = c
      · have hc : c ≠ b := fun he => hp (hpc.trans he)
        simp [hpc, hc]
      · simpa [hpc] using ih hu

private theorem view_of_noData {vol : Volume} (h : vol.jtxnData = false) : vol.view = vol.disk := by
  funext c
  simp [view, txnReadBlock, readBlock, h]

private theorem view_staging {v : Volume} (ha : v.jtxnActive)
    (hd : v.jtxnData) (c : ℕ) : v.view c = (v.staged c).getD (v.disk c) := by
  simp [view, txnReadBlock, readBlock, ha, hd]

private theorem view_restaged {vol : Volume} {b : ℕ} {buf : Block} {t : List (ℕ × Block)}
    (ha : vol.jtxnActive) (hd : vol.jtxnData)
    (h : ∀ c, (t.find? (fun p => decide (p.1 = c))).map Prod.snd =
      if c = b then some buf else vol.staged c) :
    Volume.view { vol with jtxn := t } = update vol.view b buf := by
  funext c
  have hc : Volume.staged { vol with jtxn := t } c = if c = b then some buf else vol.staged c := h c
  rw [view_staging (v := { vol with jtxn := t }) ha hd, hc]
  by_cases hcb : c = b
  · simp [hcb]
  · rw [if_neg hcb, update_of_ne hcb, view_staging ha hd]

theorem metaWriteBlock_spec (vol : Volume) (b : ℕ) (buf : Block) :
    (vol.metaWriteBlock b buf).view = update vol.view b buf ∧ (vol.metaWriteBlock b buf).disk =
        (if vol.stages b then vol.disk else update vol.disk b buf) ∧
      (vol.metaWriteBlock b buf).sb = vol.sb ∧
      (vol.metaWriteBlock b buf).blockBitmap = vol.blockBitmap ∧
      (vol.metaWriteBlock b buf).inTxn = vol.inTxn := by
  cases hact : vol.jtxnActive with
  | false =>
    have hw : vol.metaWriteBlock b buf = vol.writeBlock b buf := by simp [metaWriteBlock, hact]
    rw [hw, view_of_idle hact, view_of_idle (by simpa using hact)]
    simp [stages, inTxn, hact]
  | true =>
    cases hdata : vol.jtxnData with
    | false =>
      have hw : vol.metaWriteBlock b buf = vol.writeBlock b buf := by
        simp [metaWriteBlock, journalStage, hact, hdata]
      rw [hw, view_of_noData hdata, view_of_noData (by simpa using hdata)]
      simp [stages, inTxn, hdata]
    | true =>
      cases hr : restage b buf vol.jtxn with
      | some t =>
        have hw : vol.metaWriteBlock b buf = { vol with jtxn := t } := by
          simp [metaWriteBlock, journalStage, hact, hdata, hr]
        have hsome : vol.stages b := by
          have hne : vol.jtxn.find? (fun p => decide (p.1 = b)) ≠ none := by
            intro hnone
            rw [restage_none_iff.mpr hnone] at hr
            cases hr
          obtain ⟨q, hq⟩ := Option.ne_none_iff_exists'.mp hne
          simp [stages, inTxn, hact, hdata, staged, hq]
        rw [hw, hsome]
        exact ⟨view_restaged hact hdata fun c => find_restage hr, rfl, rfl, rfl, rfl⟩
      | none =>
        have hnone := restage_none_iff.mp hr
        have hstaged : vol.staged b = none := by simp [staged, hnone]
        by_cases hlen : 16 ≤ vol.jtxn.length
        · -- A full buffer: the block, of which no copy is staged, is written through.
          have hw : vol.metaWriteBlock b buf = vol.writeBlock b buf := by
            simp [metaWriteBlock, journalStage, hact, hdata, hr, hlen]
          have hst : vol.stages b = false := by simp [stages, hstaged, hlen]
          rw [hw, hst]
          refine ⟨funext fun c => ?_, rfl, rfl, rfl, rfl⟩
          have hsame : (vol.writeBlock b buf).staged c = vol.staged c := rfl
          rw [view_staging (v := vol.writeBlock b buf) hact hdata, hsame, writeBlock_disk]
          by_cases hc : c = b
          · simp [hc, hstaged]
          · rw [update_of_ne hc, update_of_ne hc, view_staging hact hdata]
        have hw : vol.metaWriteBlock b buf = { vol with jtxn := vol.jtxn ++ [(b, buf)] } := by
          simp [metaWriteBlock, journalStage, hact, hdata, hr, hlen]
        have hst : vol.stages b := by
          simp [stages, inTxn, hact, hdata, Nat.lt_of_not_le hlen]
        rw [hw, hst]
        refine ⟨view_restaged hact hdata fun c => ?_, rfl, rfl, rfl, rfl⟩
        rw [find?_append]
        by_cases hc : c = b
        · subst hc
          simp [hnone]
        · have hbc : b ≠ c := fun he => hc he.symm
          simp [hc, hbc, staged]

theorem metaWriteBlock_active (hs : Staging g vol) (hactive : vol.jtxnActive)
    (hroom : vol.jtxn.length < 16) (hb : InBody g b) (buf : Block) :
    ∃ t, vol.metaWriteBlock b buf = { vol with jtxn := t } ∧
      t.length ≤ vol.jtxn.length + 1 ∧ Staging g { vol with jtxn := t } ∧
      Volume.view { vol with jtxn := t } = update vol.view b buf := by
  have hview := (vol.metaWriteBlock_spec b buf).1
  have hdata : ¬ (!vol.jtxnData) := by simp [hs.jtxnData]
  rw [metaWriteBlock, if_pos hactive, journalStage, if_neg hdata] at hview ⊢
  cases hr : restage b buf vol.jtxn with
  | some t =>
    rw [hr] at hview
    have hfst := restage_eq_some hr
    have hlen : t.length = vol.jtxn.length := by simpa using congrArg length hfst
    refine ⟨t, rfl, by omega, ⟨hs.jtxnData, by rw [hfst]; exact hs.nodup, fun p hp => ?_,
      by rw [hlen]; exact hs.length_le⟩, hview⟩
    have hmem : p.1 ∈ vol.jtxn.map Prod.fst := hfst ▸ mem_map_of_mem hp
    obtain ⟨q, hq, hqp⟩ := mem_map.mp hmem
    exact hqp ▸ hs.home q hq
  | none =>
    rw [hr] at hview
    dsimp only at hview ⊢
    rw [if_neg (by omega)] at hview ⊢
    refine ⟨_, rfl, by simp, ⟨hs.jtxnData, ?_, ?_, ?_⟩, hview⟩
    · rw [map_append, nodup_append]
      refine ⟨hs.nodup, by simp, ?_⟩
      intro x hx y hy
      obtain ⟨p, hp, rfl⟩ := mem_map.mp hx
      simp only [map_cons, map_nil, mem_singleton] at hy
      exact hy ▸ find_eq_none (restage_none_iff.mp hr) p hp
    · intro p hp
      rcases mem_append.mp hp with hp | hp
      · exact hs.home p hp
      rwa [mem_singleton.mp hp]
    · simp only [length_append, length_singleton]
      omega

theorem Staging.valid (hs : Staging g vol) (hg : Geometry g) :
    Valid journalFormat g.journalBlock vol.jtxn := by
  refine ⟨hs.length_le, hs.nodup, fun p hp hin => ?_, fun p hp => ?_⟩
  · have := (hs.home p hp).2
    have := hin.1
    omega
  have := (hs.home p hp).2
  have := hg.provenanceBlock
  have := hg.totalBlocks
  have := hg.totalBlocks_lt
  have hbound : p.1 < 2 ^ 64 := by omega
  exact hbound

theorem journalCommit_settled (hg : Geometry g) (hsb : SameGeometry g vol.sb) (hs : Staging g vol)
    (hactive : vol.jtxnActive)
    (hclear : headerMagic (vol.disk g.journalBlock) ≠ journalMagic) :
    Settled journalFormat g.journalBlock vol.view vol.journalCommit.disk := by
  obtain ⟨n, hn⟩ := hsb
  rw [view_eq_applyWrites hs hactive]
  by_cases hne : vol.jtxn = []
  · have hd : vol.journalCommit.disk = vol.disk := by simp [journalCommit, hactive, hne]
    rw [hd, hne]
    exact ⟨parse_eq_none hclear, fun _ _ => rfl⟩
  have hsize : vol.sb.journalSize = 17 := by rw [hn]; exact hg.journalSize
  have hjb : vol.sb.journalBlock = g.journalBlock := by rw [hn]
  have hw := wrote_journalCommit hactive hs.jtxnData hsize hne hs.length_le
  rw [hw.disk, hjb]
  exact commit_settled (hs.valid hg) vol.disk

end Volume

end Exploidus.Exfs
