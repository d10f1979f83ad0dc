import Exploidus.Exfs.DirSpec

/-! Freeing the blocks of a removed inode. -/
namespace Exploidus.Exfs
open Refs List

structure Freed (g : Superblock) (R : ℕ × Root → ℕ) (vol vol' : Volume) : Prop where
  mid : Mid g R vol'
  runs : Runs g vol vol'
  idle : vol'.jtxnActive = false
  body : ∀ c, InBody g c → vol'.disk c = vol.disk c

def Loose (g : Superblock) (R : ℕ × Root → ℕ) (d : ℕ → Block) (b : ℕ) : Prop :=
  b ≠ 0 → InData g b ∧ ∀ s, siteRef R d s ≠ b

section
variable {g : Superblock} {R : ℕ × Root → ℕ} {vol vol' vol'' : Volume}

theorem Freed.refl (hm : Mid g R vol) (hidle : vol.jtxnActive = false) : Freed g R vol vol :=
  ⟨hm, Runs.of_eq hm.crash rfl rfl, hidle, fun _ _ => rfl⟩

theorem Freed.trans (h : Freed g R vol vol') (h' : Freed g R vol' vol'') : Freed g R vol vol'' :=
  ⟨h'.mid, h.runs.trans h'.runs, h'.idle, fun c hc => (h'.body c hc).trans (h.body c hc)⟩

theorem Freed.loose (h : Freed g R vol vol') (hm : Mid g R vol) (hidle : vol.jtxnActive = false)
    {b : ℕ} (hb : Loose g R vol.disk b) : Loose g R vol'.disk b := by
  have howned := hm.owned
  rw [Volume.view_of_idle hidle] at howned
  rw [Loose, siteRef_congr_inData howned fun c hc =>
    h.body c (hm.geometry.inBody_of_inData hc)]
  exact hb

theorem Mid.freed_block (hm : Mid g R vol) (hidle : vol.jtxnActive = false) {b : ℕ} (h0 : b ≠ 0)
    (hb : Loose g R vol.disk b) : Freed g R vol (vol.freeBlock b) := by
  obtain ⟨hin, hfree⟩ := hb h0
  obtain ⟨hmid, hruns, hbody, hidle', -⟩ := hm.freeBlock hidle hin hfree
  exact ⟨hmid, hruns, hidle', hbody⟩

theorem Mid.freed_foldl {f : Volume → ℕ → Volume} {P : (ℕ → Block) → ℕ → Prop}
    (hf : ∀ v b, Mid g R v → v.jtxnActive = false → b ≠ 0 → P v.disk b → Freed g R v (f v b))
    (hP : ∀ v v' b, Mid g R v → v.jtxnActive = false → Freed g R v v' → P v.disk b → P v'.disk b)
    (hm : Mid g R vol) (hidle : vol.jtxnActive = false) (bs : List ℕ)
    (hbs : ∀ b ∈ bs, P vol.disk b) :
    Freed g R vol (bs.foldl (fun v b => if b = 0 then v else f v b) vol) := by
  induction bs generalizing vol with
  | nil => exact Freed.refl hm hidle
  | cons b bs ih =>
    rw [foldl_cons]
    by_cases h0 : b = 0
    · rw [if_pos h0]
      exact ih hm hidle fun c hc => hbs c (mem_cons_of_mem _ hc)
    rw [if_neg h0]
    have hone := hf vol b hm hidle h0 (hbs b mem_cons_self)
    exact hone.trans (ih hone.mid hone.idle fun c hc =>
      hP vol _ c hm hidle hone (hbs c (mem_cons_of_mem _ hc)))

theorem Mid.freeBlocks (hm : Mid g R vol) (hidle : vol.jtxnActive = false) (bs : List ℕ)
    (hbs : ∀ b ∈ bs, Loose g R vol.disk b) : Freed g R vol (vol.freeBlocks bs) :=
  Mid.freed_foldl (P := fun d b => Loose g R d b)
    (fun _ _ hmv hi h0 hb => Mid.freed_block hmv hi h0 hb)
    (fun _ _ _ hmv hi h hb => h.loose hmv hi hb) hm hidle bs hbs

def LooseTable (g : Superblock) (R : ℕ × Root → ℕ) (d : ℕ → Block) (tbl : ℕ) : Prop :=
  Loose g R d tbl ∧ (tbl ≠ 0 → ∀ j, Loose g R d (ptrAt (d tbl) j))

theorem Freed.looseTable (h : Freed g R vol vol') (hm : Mid g R vol)
    (hidle : vol.jtxnActive = false) {tbl : ℕ} (ht : LooseTable g R vol.disk tbl) :
    LooseTable g R vol'.disk tbl := by
  refine ⟨h.loose hm hidle ht.1, fun h0 j => ?_⟩
  rw [h.body _ (hm.geometry.inBody_of_inData (ht.1 h0).1)]
  exact h.loose hm hidle (ht.2 h0 j)

theorem Mid.freeTable (hm : Mid g R vol) (hidle : vol.jtxnActive = false) {tbl : ℕ}
    (h0 : tbl ≠ 0) (ht : LooseTable g R vol.disk tbl) : Freed g R vol (vol.freeTable tbl) := by
  have hleaves : Freed g R vol (vol.freeBlocks (Volume.pointers (vol.readBlock tbl))) := by
    refine hm.freeBlocks hidle _ fun b hb => ?_
    obtain ⟨j, -, rfl⟩ := mem_map.mp hb
    exact ht.2 h0 j
  exact hleaves.trans (hleaves.mid.freed_block hleaves.idle h0 (hleaves.loose hm hidle ht.1))

/-- Freeing the blocks of an inode to none of which a pointer in `R` refers. -/
theorem Mid.freeInodeBlocks (hm : Mid g R vol) (hidle : vol.jtxnActive = false) {i : Inode}
    (hi : ∀ r p, Loose g R vol.disk
      (refAt Root.depth i.root (fun t j => ptrAt (vol.disk t) j) r p)) :
    Freed g R vol (vol.freeInodeBlocks i) := by
  unfold Volume.freeInodeBlocks
  dsimp only
  have htable : ∀ r p, p.length < Root.depth r → LooseTable g R vol.disk
      (refAt Root.depth i.root (fun t j => ptrAt (vol.disk t) j) r p) := by
    intro r p hlt
    refine ⟨hi r p, fun h0 j => ?_⟩
    have hj := hi r (j :: p)
    rwa [refAt, if_pos hlt, slot_of_ne h0] at hj
  have h1 : Freed g R vol (vol.freeBlocks ((range 12).map i.directAt)) := by
    refine hm.freeBlocks hidle _ fun b hb => ?_
    obtain ⟨k, -, rfl⟩ := mem_map.mp hb
    exact hi (.direct k) []
  generalize vol.freeBlocks ((range 12).map i.directAt) = v1 at h1 ⊢
  have h2 : Freed g R vol (if i.indirect = 0 then v1 else v1.freeTable i.indirect.toNat) := by
    split_ifs with hz
    · exact h1
    refine h1.trans (h1.mid.freeTable h1.idle (fun h0 => hz (UInt64.toNat_inj.mp h0)) ?_)
    exact h1.looseTable hm hidle (htable .indirect [] (by decide))
  generalize (if i.indirect = 0 then v1 else v1.freeTable i.indirect.toNat) = v2 at h2 ⊢
  by_cases hz : i.doubleIndirect = 0
  · rwa [if_pos hz]
  rw [if_neg hz]
  have h0 : i.doubleIndirect.toNat ≠ 0 := fun h0 => hz (UInt64.toNat_inj.mp h0)
  have hroot := hi .doubleIndirect []
  have hsame : v2.readBlock i.doubleIndirect.toNat = vol.disk i.doubleIndirect.toNat :=
    h2.body _ (hm.geometry.inBody_of_inData (hroot h0).1)
  have h3 : Freed g R v2 ((Volume.pointers (v2.readBlock i.doubleIndirect.toNat)).foldl
      (fun v p => if p = 0 then v else v.freeTable p) v2) := by
    refine Mid.freed_foldl (P := fun d b => LooseTable g R d b)
      (fun _ _ hmv hi h0 hb => Mid.freeTable hmv hi h0 hb)
      (fun _ _ _ hmv hi h hb => h.looseTable hmv hi hb) h2.mid h2.idle _ fun b hb => ?_
    obtain ⟨j, -, rfl⟩ := mem_map.mp hb
    rw [hsame]
    have hl1 : refAt Root.depth i.root (fun t j => ptrAt (vol.disk t) j) .doubleIndirect [] ≠ 0 :=
      h0
    have ht := htable .doubleIndirect [j] (by simp [Root.depth])
    rw [refAt, if_pos (by decide), slot_of_ne hl1] at ht
    exact h2.looseTable hm hidle ht
  exact (h2.trans h3).trans
    (h3.mid.freed_block h3.idle h0 (h3.loose h2.mid h2.idle (h2.loose hm hidle hroot)))

end

end Exploidus.Exfs
