import Exploidus.Exfs.Safety

/-! `exfs_resolve_block` inside a transaction with any blocks staged. It stages what it writes
but reads pointer blocks from the device, so the mapping of the staged view is extended as it
should be only where device and staged view agree on the tables of the path. -/
namespace Exploidus.Exfs
open WriteLog Refs Function Volume List Inode

namespace Volume

/-- What reading block `b` gives after it has been cleared by a metadata write. -/
def reread (vol : Volume) (b : ℕ) : Block := if vol.stages b then vol.disk b else zeroBlock

/-- The worst that reading block `b` can give after it has been cleared by a later one. -/
def stale (vol : Volume) (b : ℕ) : Block := if vol.inTxn then vol.disk b else zeroBlock

end Volume

theorem Volume.marked_eq (g : Superblock) (vol : Volume) (b n : ℕ) : Volume.marked g vol b n =
    { vol with
      sb := { g with freeBlocks := n }
      blockBitmap := bitmapSet vol.blockBitmap b
      disk := applyWrites vol.disk (flushWrites g (bitmapSet vol.blockBitmap b))
      log := vol.log ++ flushWrites g (bitmapSet vol.blockBitmap b) } := by
  rw [marked, writeAll_eq]

theorem Geometry.flushWrites_above {g : Superblock} (hg : Geometry g) (bm : ℕ → UInt8)
    (d : ℕ → Block) {c : ℕ} (hc : g.inodeTableBlock ≤ c) :
    applyWrites d (flushWrites g bm) c = d c := by
  have hother := flush_prefix_other (g := g) bm d (flushWrites g bm).length (b := c) (by
    have := hg.inodeTableBlock
    have := hg.blockBitmapBlock
    omega)
  rwa [take_length] at hother

def txnRefs (vol : Volume) (i : Inode) : Root × List ℕ → ℕ :=
  ref Root.depth i.root fun t j => ptrAt (vol.view t) j

/-- An inode of a volume with any transaction open: in the staged view every block it references
stands at one site, lies in the data region and is marked used. -/
structure TxnInode (g : Superblock) (vol : Volume) (i : Inode) : Prop extends LaidOut g vol where
  owned : Owned (txnRefs vol i) fun b => InData g b ∧ bitmapGet vol.blockBitmap b = true

def nextFree (g : Superblock) (bm : ℕ → UInt8) : Option ℕ :=
  findClear bm (g.totalBlocks - g.dataStartBlock) g.dataStartBlock

theorem txnRefs_eq_blockAt (vol : Volume) (i : Inode) {fb : ℕ} (h : fb < maxDirBlocks) :
    txnRefs vol i (rootOf fb, pathOf fb) = blockAt vol.view i fb := (if_pos h).symm

structure HandedOut (g : Superblock) (vol : Volume) (b : ℕ) (vol' : Volume) : Prop where
  next : nextFree g vol.blockBitmap = some b
  inData : InData g b
  old : bitmapGet vol.blockBitmap b = false
  bitmap : vol'.blockBitmap = bitmapSet vol.blockBitmap b
  sb : SameGeometry g vol'.sb
  inTxn : vol'.inTxn = vol.inTxn

section
variable {g : Superblock} {vol vol' : Volume} {i : Inode} {b t : ℕ}

theorem HandedOut.metaWriteBlock (h : HandedOut g vol b vol') (c : ℕ) (buf : Block) :
    HandedOut g vol b (vol'.metaWriteBlock c buf) := by
  obtain ⟨-, -, hsb, hbm, htxn⟩ := vol'.metaWriteBlock_spec c buf
  exact ⟨h.next, h.inData, h.old, hbm ▸ h.bitmap, hsb ▸ h.sb, htxn.trans h.inTxn⟩

theorem HandedOut.bit (h : HandedOut g vol b vol') (c : ℕ) :
    bitmapGet vol'.blockBitmap c = (decide (c = b) || bitmapGet vol.blockBitmap c) := by
  rw [h.bitmap, bitmapGet_bitmapSet]

theorem HandedOut.lt (hg : Geometry g) (h : HandedOut g vol b vol') : b < 2 ^ 64 :=
  hg.lt_of_inData h.inData

theorem HandedOut.ne_zero (hg : Geometry g) (h : HandedOut g vol b vol') : b ≠ 0 := by
  have := h.inData.1
  have := hg.dataStartBlock
  omega

theorem HandedOut.laidOut (ho : HandedOut g vol b vol') (h : LaidOut g vol) : LaidOut g vol' := by
  refine ⟨h.geometry, ho.sb, fun c hc hc' => ?_⟩
  rw [ho.bit, h.reserved c hc hc', Bool.or_true]

theorem TxnInode.fresh (h : TxnInode g vol i) (hb : bitmapGet vol.blockBitmap b = false)
    (hb0 : b ≠ 0) (s : Root × List ℕ) : txnRefs vol i s ≠ b := by
  rintro rfl
  have := (h.owned.ok hb0).2
  rw [hb] at this
  exact absurd this (by decide)

theorem LaidOut.allocBlock (h : LaidOut g vol) :
    (nextFree g vol.blockBitmap = none ∧ vol.allocBlock = (vol, 0)) ∨
      ∃ b, HandedOut g vol b vol.allocBlock.1 ∧ vol.allocBlock.2 = b ∧
        (∀ c, InData g c → vol.allocBlock.1.view c = vol.view c) ∧
        (∀ c, InData g c → vol.allocBlock.1.disk c = vol.disk c) ∧
        ∀ c, vol.allocBlock.1.stages c = vol.stages c := by
  have hg := h.geometry
  rcases allocBlock_cases hg h.sb with hnone | ⟨b, n, hnext, heq⟩
  · exact .inl hnone
  right
  obtain ⟨hlo, hhi, hbit⟩ := findClear_eq_some hnext
  have hin : InData g b := by
    refine ⟨hlo, ?_⟩
    by_contra hge
    rw [h.reserved b (by omega) (by omega)] at hbit
    exact absurd hbit (by decide)
  have hmarked := marked_eq g vol b n
  have hdisk : ∀ c, InData g c → (marked g vol b n).disk c = vol.disk c := by
    intro c hc
    rw [hmarked]
    exact hg.flushWrites_above _ _ (hg.inBody_of_inData hc).1
  rw [heq]
  refine ⟨b, ⟨hnext, hin, hbit, ?_, ⟨n, ?_⟩, ?_⟩, rfl, fun c hc => ?_, hdisk, fun c => ?_⟩
  · rw [hmarked]
  · rw [hmarked]
  · rw [hmarked]
    rfl
  · have hd := hdisk c hc
    rw [hmarked] at hd ⊢
    simp only [view, txnReadBlock, readBlock, staged] at hd ⊢
    rw [hd]
  · rw [hmarked]
    rfl

variable {s : Root × List ℕ}

theorem TxnInode.linked (h : TxnInode g vol i) (ho : HandedOut g vol b vol') {i' : Inode}
    (hrefs : txnRefs vol' i' = update (txnRefs vol i) s b) :
    TxnInode g vol' i' := by
  refine ⟨ho.laidOut h.toLaidOut, ?_⟩
  rw [hrefs]
  refine (h.owned.mono fun s _ hok => ⟨hok.1, ?_⟩).update
    (h.fresh ho.old (ho.ne_zero h.geometry)) ⟨ho.inData, by simp [ho.bit]⟩
  rw [ho.bit, hok.2, Bool.or_true]

theorem TxnInode.linkRoot (h : TxnInode g vol i) {r : Root} (h0 : i.root r = 0)
    (hr : ∀ k, r = .direct k → k < 12) (ho : HandedOut g vol b vol')
    (hview : ∀ c, InData g c → c ≠ b → vol'.view c = vol.view c)
    (hz : 0 < r.depth → vol'.view b = zeroBlock) :
    txnRefs vol' (i.setRoot r b) = update (txnRefs vol i) (r, []) b ∧
      TxnInode g vol' (i.setRoot r b) := by
  have hg := h.geometry
  have hb0 := ho.ne_zero hg
  have hroot : (i.setRoot r b).root = update i.root r b := by
    funext r'
    by_cases he : r' = r
    · subst he
      rw [update_self, i.root_setRoot_self (ho.lt hg) hr]
    · rw [update_of_ne he, i.root_setRoot_ne _ he]
  have hsame : ref Root.depth i.root (fun t j => ptrAt (vol'.view t) j) = txnRefs vol i := by
    refine ref_congr fun r' p _ hne j => ?_
    exact congrArg (ptrAt · j) (hview _ (h.owned.ok hne).1 (h.fresh ho.old hb0 (r', p)))
  have hrefs : txnRefs vol' (i.setRoot r b) = update (txnRefs vol i) (r, []) b := by
    rw [txnRefs, hroot, ref_update_root h0 fun hd j => by rw [hz hd, ptrAt_zeroBlock], hsame]
  exact ⟨hrefs, h.linked ho hrefs⟩

theorem TxnInode.linkEntry (h : TxnInode g vol i) {r : Root} {p : List ℕ} {idx : ℕ}
    (hlt : p.length < r.depth) (ht : txnRefs vol i (r, p) = t) (ht0 : t ≠ 0)
    (h0 : ptrAt (vol.view t) idx = 0) (ho : HandedOut g vol b vol')
    (hentry : ∀ j, ptrAt (vol'.view t) j = if j = idx then b else ptrAt (vol.view t) j)
    (hview : ∀ c, InData g c → c ≠ t → c ≠ b → vol'.view c = vol.view c)
    (hz : p.length + 1 < r.depth → vol'.view b = zeroBlock) :
    txnRefs vol' i = update (txnRefs vol i) (r, idx :: p) b ∧ TxnInode g vol' i := by
  have hg := h.geometry
  have hb0 := ho.ne_zero hg
  have hrefs : txnRefs vol' i = update (txnRefs vol i) (r, idx :: p) b := by
    subst ht
    refine ref_update_entry h.owned hlt ht0 h0 ?_ ?_ ?_ ?_
    · intro hd j
      rw [hz hd, ptrAt_zeroBlock]
    · exact (hentry idx).trans (if_pos rfl)
    · exact fun j hj => (hentry j).trans (if_neg hj)
    · intro r' p' _ hne hnet j
      exact congrArg (ptrAt · j) (hview _ (h.owned.ok hne).1 hnet (h.fresh ho.old hb0 (r', p')))
  exact ⟨hrefs, h.linked ho hrefs⟩

/-- A table read as `D` serves for the table `S` of the staged view: entry `idx` is the same, and
the others are where the table will be written back with a new entry. -/
def Serves (D S : Block) (idx : ℕ) (room : Prop) : Prop :=
  ptrAt D idx = ptrAt S idx ∧ (ptrAt S idx = 0 → room → ∀ j, ptrAt D j = ptrAt S j)

structure Keeps (F F' : Root × List ℕ → ℕ) (s : Root × List ℕ) (b : ℕ) : Prop where
  same : F' s = b
  kept : F s ≠ 0 → b = F s
  others : ∀ s', s' ≠ s → s'.2.length = s'.1.depth → F' s' = F s'

theorem Keeps.update_iff {F F' : Root × List ℕ → ℕ} {u : Root × List ℕ} {v : ℕ}
    (hs : s.2.length = s.1.depth) (hu : u.2.length < u.1.depth) :
    Keeps (update F u v) F' s b ↔ Keeps F F' s b := by
  have hleaf : ∀ s', s'.2.length = s'.1.depth → update F u v s' = F s' := by
    intro s' hs'
    refine update_of_ne ?_ _ _
    rintro rfl
    omega
  constructor
  · intro h
    exact ⟨h.same, by rw [← hleaf s hs]; exact h.kept,
      fun s' hne hs' => (h.others s' hne hs').trans (hleaf s' hs')⟩
  · intro h
    exact ⟨h.same, by rw [hleaf s hs]; exact h.kept,
      fun s' hne hs' => (h.others s' hne hs').trans (hleaf s' hs').symm⟩

theorem Keeps.refl {F : Root × List ℕ → ℕ} : Keeps F F s (F s) :=
  ⟨rfl, fun _ => rfl, fun _ _ _ => rfl⟩

theorem Keeps.of_update {F : Root × List ℕ → ℕ} (h : F s = 0) : Keeps F (update F s b) s b :=
  ⟨update_self .., fun hne => absurd h hne, fun _ hne _ => update_of_ne hne _ _⟩

def FreeData (g : Superblock) (vol : Volume) (b : ℕ) : Prop :=
  InData g b ∧ bitmapGet vol.blockBitmap b = false

theorem HandedOut.free {c : ℕ} (ho : HandedOut g vol b vol') (hc : FreeData g vol' c) :
    c ≠ b ∧ FreeData g vol c := by
  have hbit := hc.2
  rw [ho.bit, Bool.or_eq_false_iff, decide_eq_false_iff_not] at hbit
  exact ⟨hbit.1, hc.1, hbit.2⟩

structure Maps (g : Superblock) (vol : Volume) (i : Inode) (s : Root × List ℕ) (vol' : Volume)
    (i' : Inode) (b : ℕ) : Prop where
  keeps : Keeps (txnRefs vol i) (txnRefs vol' i') s b
  fresh : txnRefs vol i s = 0 → b = 0 ∨ FreeData g vol b

theorem Maps.refl : Maps g vol i s vol i (txnRefs vol i s) :=
  ⟨Keeps.refl, .inl⟩

theorem Maps.after {v v' : Volume} {i1 i' : Inode} {s0 : Root × List ℕ}
    (hs : s.2.length = s.1.depth) (hs0 : s0.2.length < s0.1.depth) (ho : HandedOut g vol t v)
    (hrefs : txnRefs v i1 = update (txnRefs vol i) s0 t) (h : Maps g v i1 s v' i' b) :
    Maps g vol i s v' i' b := by
  obtain ⟨hk, hf⟩ := h
  have hne : s ≠ s0 := by
    rintro rfl
    omega
  rw [hrefs] at hk hf
  rw [update_of_ne hne] at hf
  exact ⟨(Keeps.update_iff hs hs0).mp hk, fun h0 => (hf h0).imp id fun hb => (ho.free hb).2⟩

theorem Maps.none (h : txnRefs vol i s = 0) : Maps g vol i s vol i 0 := h ▸ Maps.refl

theorem TxnInode.refs_entry {r : Root} {p : List ℕ} (hlt : p.length < r.depth)
    (ht : txnRefs vol i (r, p) = t) (ht0 : t ≠ 0) (j : ℕ) :
    txnRefs vol i (r, j :: p) = ptrAt (vol.view t) j := by
  subst ht
  exact (ref_cons_of_lt hlt j).trans (slot_of_ne ht0 j)

theorem LaidOut.newBlock (h : LaidOut g vol) (leaf : Bool) :
    (nextFree g vol.blockBitmap = none ∧ vol.newBlock leaf = (vol, 0)) ∨
      ∃ t, HandedOut g vol t (vol.newBlock leaf).1 ∧ (vol.newBlock leaf).2 = t ∧
        (leaf = false → (vol.newBlock leaf).1.view t = zeroBlock ∧
          (vol.newBlock leaf).1.disk t = vol.reread t) ∧
        (∀ c, InData g c → c ≠ t → (vol.newBlock leaf).1.view c = vol.view c) ∧
        ∀ c, InData g c → c ≠ t → (vol.newBlock leaf).1.disk c = vol.disk c := by
  have hg := h.geometry
  cases leaf with
  | true =>
    refine h.allocBlock.imp id fun ⟨t, ho, heq, hview, hdisk, _⟩ => ?_
    exact ⟨t, ho, heq, fun h => absurd h (by decide), fun c hc _ => hview c hc,
      fun c hc _ => hdisk c hc⟩
  | false =>
    unfold Volume.newBlock Volume.allocTable
    dsimp only
    rw [if_neg Bool.false_ne_true]
    rcases h.allocBlock with ⟨hnone, heq⟩ | ⟨t, ho, heq, hview, hdisk, hst⟩
    · left
      rw [heq]
      exact ⟨hnone, if_pos rfl⟩
    right
    rw [heq, if_neg (ho.ne_zero hg)]
    obtain ⟨hw, hd, -⟩ := vol.allocBlock.1.metaWriteBlock_spec t zeroBlock
    refine ⟨t, ho.metaWriteBlock t zeroBlock, rfl, fun _ => ⟨?_, ?_⟩, fun c hc hne => ?_,
      fun c hc hne => ?_⟩
    · rw [hw, update_self]
    · rw [hd, hst, reread]
      split_ifs
      · exact hdisk t ho.inData
      · rw [update_self]
    · rw [hw, update_of_ne hne, hview c hc]
    · rw [hd]
      split_ifs
      · exact hdisk c hc
      · rw [update_of_ne hne, hdisk c hc]

/-- The last table of a path, `t` or the next free block if `t` is 0, serves. `new` is what a new
table holds when it is read back. -/
def LastServes (g : Superblock) (vol : Volume) (new : ℕ → Block) (bm : ℕ → UInt8) (t idx : ℕ) :
    Prop :=
  (t ≠ 0 → Serves (vol.disk t) (vol.view t) idx (nextFree g bm ≠ none)) ∧
    (t = 0 → ∀ t', nextFree g bm = some t' →
      Serves (new t') zeroBlock idx (nextFree g (bitmapSet bm t') ≠ none))

/-- The first of two tables of a path, read as `D` where the staged view has `S`, and the second
one serve. -/
def BothServe (g : Superblock) (vol : Volume) (new : ℕ → Block) (bm : ℕ → UInt8) (D S : Block)
    (idx1 idx2 : ℕ) : Prop :=
  Serves D S idx1 (nextFree g bm ≠ none) ∧ LastServes g vol new bm (ptrAt S idx1) idx2

theorem serves_zero (idx : ℕ) (room : Prop) : Serves zeroBlock zeroBlock idx room :=
  ⟨rfl, fun _ _ _ => rfl⟩

/-- The tables along the indices serve, from one on that is read as `D` where the staged view has
`S`. -/
def Agree (g : Superblock) (vol : Volume) (new : ℕ → Block) :
    List ℕ → (ℕ → UInt8) → Block → Block → Prop
  | [], _, _, _ => True
  | idx :: q, bm, D, S => Serves D S idx (nextFree g bm ≠ none) ∧ (ptrAt S idx ≠ 0 →
        Agree g vol new q bm (vol.disk (ptrAt S idx)) (vol.view (ptrAt S idx))) ∧
      (ptrAt S idx = 0 → ∀ t', nextFree g bm = some t' →
        Agree g vol new q (bitmapSet bm t') (new t') zeroBlock)

theorem agree_singleton {new : ℕ → Block} {bm : ℕ → UInt8} {D S : Block} {idx : ℕ} :
    Agree g vol new [idx] bm D S ↔ Serves D S idx (nextFree g bm ≠ none) :=
  ⟨fun h => h.1, fun h => ⟨h, fun _ => trivial, fun _ _ _ => trivial⟩⟩

theorem BothServe.agree {new : ℕ → Block} {bm : ℕ → UInt8} {D S : Block} {idx1 idx2 : ℕ}
    (h : BothServe g vol new bm D S idx1 idx2) : Agree g vol new [idx1, idx2] bm D S :=
  ⟨h.1, fun h0 => agree_singleton.mpr (h.2.1 h0), fun h0 t ht => agree_singleton.mpr (h.2.2 h0 t ht)⟩

/-- Below a new table there are new ones only. -/
theorem Agree.zero {new : ℕ → Block} {q : List ℕ} {bm : ℕ → UInt8} {D D' : Block}
    (h : Agree g vol new q bm D zeroBlock) (hD : D' = D ∨ D' = zeroBlock) :
    Agree g vol' new q bm D' zeroBlock := by
  induction q generalizing bm D D' with
  | nil => trivial
  | cons idx q ih =>
    refine ⟨?_, fun h0 => absurd (ptrAt_zeroBlock idx) h0, fun h0 t ht =>
      ih (h.2.2 h0 t ht) (.inl rfl)⟩
    rcases hD with rfl | rfl
    · exact h.1
    · exact serves_zero _ _

theorem Volume.reread_cases (v : Volume) (t : ℕ) :
    v.reread t = v.stale t ∨ v.reread t = zeroBlock := by
  unfold reread stages stale
  cases v.inTxn with
  | false => exact .inr rfl
  | true =>
    rw [Bool.true_and, if_pos rfl]
    split_ifs
    · exact .inl rfl
    · exact .inr rfl

section Descend
variable {r : Root} {p q : List ℕ} {new : ℕ → Block}

/-- From a table on: what is mapped is as it should be if the tables along the indices serve. -/
theorem TxnInode.descend (h : TxnInode g vol i) (hdepth : p.length + q.length = r.depth)
    (ht : txnRefs vol i (r, p) = t) (ht0 : t ≠ 0) (hidx : ∀ j ∈ q, j < 512)
    (hnew : ∀ c, FreeData g vol c → vol.stale c = new c)
    (hD : Agree g vol new q vol.blockBitmap (vol.disk t) (vol.view t)) :
    Maps g vol i (r, q.reverse ++ p) (vol.descend t q).1 i (vol.descend t q).2 := by
  induction q generalizing vol p t with
  | nil =>
    subst ht
    exact Maps.refl
  | cons idx q ih =>
    have hg := h.geometry
    have hlt : p.length < r.depth := by simp at hdepth; omega
    obtain ⟨⟨hsame, hall⟩, hold, hnext⟩ := hD
    have hsite := TxnInode.refs_entry hlt ht ht0 idx
    have hidx' : ∀ j ∈ q, j < 512 := fun j hj => hidx j (mem_cons_of_mem idx hj)
    have hdepth' : (idx :: p).length + q.length = r.depth := by simp at hdepth ⊢; omega
    rw [show (idx :: q).reverse ++ p = q.reverse ++ idx :: p by simp, descend]
    by_cases h0 : ptrAt (vol.disk t) idx = 0
    · have hS := hsame.symm.trans h0
      rw [if_neg (by simpa using h0)]
      rcases h.toLaidOut.newBlock q.isEmpty with ⟨-, heq⟩ | ⟨b, ho, heq, hzero, hview, hdisk⟩
      · rw [heq, if_pos rfl]
        exact .none (ref_of_suffix_eq_zero (hsite.trans hS) (suffix_append _ _))
      have hb0 := ho.ne_zero hg
      obtain ⟨hin, hused⟩ := h.owned.ok (ht.trans_ne ht0)
      rw [ht] at hin hused
      have htb : b ≠ t := fun he => h.fresh ho.old hb0 (r, p) (ht.trans he.symm)
      rw [heq, if_neg hb0]
      obtain ⟨hw, hd, -⟩ := (vol.newBlock q.isEmpty).1.metaWriteBlock_spec t
        (setPtr (vol.disk t) idx b)
      have ho' := ho.metaWriteBlock t (setPtr (vol.disk t) idx b)
      have hj := hall hS (by rw [ho.next]; simp)
      have hkeep : ∀ c ≠ t, ((vol.newBlock q.isEmpty).1.metaWriteBlock t
          (setPtr (vol.disk t) idx b)).disk c = (vol.newBlock q.isEmpty).1.disk c := by
        intro c hc
        rw [hd]
        split_ifs
        · rfl
        · exact update_of_ne hc _ _
      obtain ⟨hrefs, hT⟩ := h.linkEntry hlt ht ht0 hS ho'
        (fun j => by
          rw [hw, update_self]
          split_ifs with hji
          · rw [hji, ptrAt_setPtr_self _ (hidx idx mem_cons_self) (ho.lt hg)]
          · rw [ptrAt_setPtr_ne _ _ hji, hj])
        (fun c hc hct hcb => by rw [hw, update_of_ne hct, hview c hc hcb])
        (fun hd => by
          rw [hw, update_of_ne htb]
          exact (hzero (by cases q <;> simp at hdepth ⊢; omega)).1)
      cases q with
      | nil =>
        refine ⟨?_, fun _ => .inr ⟨ho.inData, ho.old⟩⟩
        rw [descend, hrefs]
        exact Keeps.of_update (hsite.trans hS)
      | cons j q =>
        obtain ⟨hz, hback⟩ := hzero rfl
        generalize (vol.newBlock (j :: q).isEmpty).1.metaWriteBlock t
          (setPtr (vol.disk t) idx b) = v at *
        refine .after (by simp at hdepth ⊢; omega) (by simp at hdepth ⊢; omega) ho' hrefs
          (ih hT hdepth' (by rw [hrefs, update_self]) hb0 hidx' (fun c hc => ?_) ?_)
        · obtain ⟨hcb, hfree⟩ := ho'.free hc
          have hct : c ≠ t := by
            rintro rfl
            exact absurd (hused.symm.trans hfree.2) (by decide)
          rw [← hnew c hfree, stale, stale, ho'.inTxn, hkeep c hct, hdisk c hc.1 hcb]
        · rw [hw, update_of_ne htb, hz, hkeep b htb, hback, ho'.bitmap]
          refine (hnext hS b ho.next).zero ?_
          rw [← hnew b ⟨ho.inData, ho.old⟩]
          exact vol.reread_cases b
    · rw [if_pos h0]
      rw [← hsame] at hsite hold
      exact ih h hdepth' hsite h0 hidx' hnew (hold h0)

end Descend

/-- The tables on the way to logical block `fb` serve as the device holds them: existing ones
agree with the staged view, new ones read back as zeros, each as far as the walk depends on it. -/
def TablesAgree (g : Superblock) (vol : Volume) (i : Inode) (fb : ℕ) : Prop :=
  let bm := vol.blockBitmap
  let idx1 := (fb - 524) / 512
  let idx2 := (fb - 524) % 512
  let t := i.doubleIndirect.toNat
  if fb < 12 then True
  else if fb < 524 then LastServes g vol vol.reread bm i.indirect.toNat (fb - 12)
  else
    (t ≠ 0 → BothServe g vol vol.stale bm (vol.disk t) (vol.view t) idx1 idx2) ∧
    (t = 0 → ∀ t', nextFree g bm = some t' →
      BothServe g vol vol.stale (bitmapSet bm t') (vol.reread t') zeroBlock idx1 idx2)

/-- An allocating resolution of logical block `fb` as seen in the staged view: the block mapped
there, or one that was free before; resolving again gives it; other logical blocks are mapped as
they were. -/
structure ResolvesWell (g : Superblock) (vol : Volume) (i : Inode) (fb : ℕ)
    (res : Volume × Inode × ℕ × Bool) : Prop where
  mapped : blockAt vol.view i fb ≠ 0 → res.2.2.1 = blockAt vol.view i fb
  fresh : blockAt vol.view i fb = 0 → res.2.2.1 = 0 ∨ FreeData g vol res.2.2.1
  again : blockAt res.1.view res.2.1 fb = res.2.2.1
  others : ∀ fb', fb' ≠ fb → blockAt res.1.view res.2.1 fb' = blockAt vol.view i fb'

private theorem leaf_cases (hs : s.2.length = s.1.depth) :
    (∃ fb, fb < maxDirBlocks ∧ s = (rootOf fb, pathOf fb)) ∨ ∀ vol i, txnRefs vol i s = 0 := by
  have hout : ∀ (r : Root) (p : List ℕ) (j : ℕ), 512 ≤ j →
      ∀ vol i, txnRefs vol i (r, j :: p) = 0 := by
    intro r p j hj vol i
    rw [txnRefs, ref_cons]
    split_ifs
    · unfold slot
      split_ifs
      · rfl
      · exact ptrAt_of_le _ hj
    · rfl
  obtain ⟨r, p⟩ := s
  cases r with
  | direct k =>
    obtain rfl := length_eq_zero_iff.mp hs
    by_cases hk : k < 12
    · exact .inl ⟨k, by unfold maxDirBlocks; omega, by simp [rootOf, pathOf, hk]⟩
    · exact .inr fun vol i => dif_neg hk
  | indirect =>
    obtain ⟨j, rfl⟩ := length_eq_one_iff.mp hs
    by_cases hj : j < 512
    · refine .inl ⟨12 + j, by unfold maxDirBlocks; omega, ?_⟩
      have hlt : 12 + j < 524 := by omega
      simp [rootOf, pathOf, hlt]
    · exact .inr (hout _ _ j (by omega))
  | doubleIndirect =>
    obtain ⟨j, k, rfl⟩ := length_eq_two.mp hs
    by_cases hj : j < 512
    · by_cases hk : k < 512
      · refine .inl ⟨524 + (512 * k + j), by unfold maxDirBlocks; omega, ?_⟩
        have hge : ¬ 524 + (512 * k + j) < 12 := by omega
        have hdiv : (512 * k + j) / 512 = k := by omega
        have hmod : (512 * k + j) % 512 = j := by omega
        simp [rootOf, pathOf, hge, hdiv, hmod]
      · exact .inr fun vol i => ref_cons_of_eq_zero (hout _ _ k (by omega) vol i) j
    · exact .inr (hout _ _ j (by omega))

theorem resolvesWell_iff {fb : ℕ} (hfb : fb < maxDirBlocks) (res : Volume × Inode × ℕ × Bool) :
    ResolvesWell g vol i fb res ↔ Maps g vol i (rootOf fb, pathOf fb) res.1 res.2.1 res.2.2.1 := by
  have hat := txnRefs_eq_blockAt vol i hfb
  have hat' := txnRefs_eq_blockAt res.1 res.2.1 hfb
  constructor
  · intro h
    refine ⟨⟨hat'.trans h.again, hat ▸ h.mapped, fun s hne hs => ?_⟩, hat ▸ h.fresh⟩
    rcases leaf_cases hs with ⟨fb', hfb', rfl⟩ | hz
    · rw [txnRefs_eq_blockAt _ _ hfb', txnRefs_eq_blockAt _ _ hfb']
      exact h.others fb' fun he => hne (by rw [he])
    · rw [hz, hz]
  intro h
  refine ⟨hat ▸ h.keeps.kept, hat ▸ h.fresh, hat'.symm.trans h.keeps.same, fun fb' hne => ?_⟩
  by_cases hfb' : fb' < maxDirBlocks
  · rw [← txnRefs_eq_blockAt _ _ hfb', ← txnRefs_eq_blockAt _ _ hfb']
    refine h.keeps.others _ (fun he => hne ?_) (length_pathOf fb')
    exact pathOf_inj (congrArg Prod.fst he) (congrArg Prod.snd he)
  · rw [blockAt, blockAt, if_neg hfb', if_neg hfb']

section Resolve
variable {fb : ℕ} {r : Root} {q : List ℕ}

section
variable (h : TxnInode g vol i)
include h

/-- A first block that is new is linked under its root. -/
private theorem TxnInode.newRoot (hdirect : ∀ k, r = .direct k → k < 12)
    (hq : q.length = r.depth) (h0 : i.root r = 0) :
    (nextFree g vol.blockBitmap = none ∧ vol.resolveAt i r q = (vol, i, 0, false)) ∨
      ∃ b v, nextFree g vol.blockBitmap = some b ∧ HandedOut g vol b v ∧
        txnRefs v (i.setRoot r b) = update (txnRefs vol i) (r, []) b ∧
        TxnInode g v (i.setRoot r b) ∧ (i.setRoot r b).root r = b ∧
        (q ≠ [] → v.view b = zeroBlock ∧ v.disk b = vol.reread b) ∧
        (∀ c, FreeData g v c → v.stale c = vol.stale c) ∧
        vol.resolveAt i r q = ((v.descend b q).1, i.setRoot r b, (v.descend b q).2, true) := by
  have hg := h.geometry
  unfold resolveAt
  rw [if_neg (by simpa using h0)]
  rcases h.toLaidOut.newBlock q.isEmpty with ⟨hnone, heq⟩ | ⟨b, ho, heq, hzero, hview, hdisk⟩
  · left
    rw [heq]
    exact ⟨hnone, if_pos rfl⟩
  right
  have hzero' : q ≠ [] → _ := fun hne => hzero (by simpa using hne)
  obtain ⟨hrefs, hT⟩ := h.linkRoot h0 hdirect ho hview fun hd =>
    (hzero' (ne_nil_of_length_pos (hq ▸ hd))).1
  rw [heq, if_neg (ho.ne_zero hg)]
  refine ⟨b, _, ho.next, ho, hrefs, hT, i.root_setRoot_self (ho.lt hg) hdirect, hzero',
    fun c hc => ?_, rfl⟩
  obtain ⟨hne, hin, -⟩ := ho.free hc
  rw [stale, stale, ho.inTxn, hdisk c hin hne]

theorem TxnInode.resolveAt (hdirect : ∀ k, r = .direct k → k < 12)
    (hq : q.length = r.depth) (hidx : ∀ j ∈ q, j < 512)
    (hold : i.root r ≠ 0 → Agree g vol vol.stale q vol.blockBitmap (vol.disk (i.root r))
      (vol.view (i.root r)))
    (hnew : i.root r = 0 → ∀ t, nextFree g vol.blockBitmap = some t →
      Agree g vol vol.stale q (bitmapSet vol.blockBitmap t) (vol.reread t) zeroBlock) :
    Maps g vol i (r, q.reverse) (vol.resolveAt i r q).1 (vol.resolveAt i r q).2.1
      (vol.resolveAt i r q).2.2.1 := by
  have hdepth : ([] : List ℕ).length + q.length = r.depth := (Nat.zero_add _).trans hq
  have hpath := append_nil q.reverse
  by_cases h0 : i.root r = 0
  · have hleaf : q.reverse.length = r.depth := (length_reverse ..).trans hq
    rcases h.newRoot hdirect hq h0 with
      ⟨-, heq⟩ | ⟨b, v, hnext, ho, hrefs, hT, hroot, hzero, hstale, heq⟩ <;> rw [heq]
    · exact .none (ref_of_root_eq_zero h0 _)
    cases q with
    | nil =>
      refine ⟨?_, fun _ => .inr ⟨ho.inData, ho.old⟩⟩
      exact (congrArg (Keeps _ · _ _) hrefs).mpr (Keeps.of_update h0)
    | cons j q =>
      obtain ⟨hz, hback⟩ := hzero (by simp)
      have hmaps := hT.descend hdepth hroot (ho.ne_zero h.geometry) hidx hstale (by
        rw [hz, hback, ho.bitmap]
        exact (hnew h0 b hnext).zero (.inl rfl))
      rw [hpath] at hmaps
      dsimp only
      exact .after hleaf (by simp at hq ⊢; omega) ho hrefs hmaps
  · have hmaps := h.descend hdepth rfl h0 hidx (fun _ _ => rfl) (hold h0)
    rw [hpath] at hmaps
    rwa [Volume.resolveAt, if_pos h0]

private theorem TxnInode.serves_of_keeps {idx : ℕ} (hr : r.depth = 1)
    (ht : i.root r = t) (ht0 : t ≠ 0)
    (hk : Keeps (txnRefs vol i) (txnRefs (vol.descend t [idx]).1 i) (r, [idx])
      (vol.descend t [idx]).2) :
    Serves (vol.disk t) (vol.view t) idx (nextFree g vol.blockBitmap ≠ none) := by
  have hg := h.geometry
  have hroot : ∀ v, txnRefs v i (r, []) = t := fun v => ht
  have hsite : ∀ v j, txnRefs v i (r, [j]) = ptrAt (v.view t) j := fun v j =>
    TxnInode.refs_entry (by simp [hr]) (hroot v) ht0 j
  rw [Volume.descend] at hk
  by_cases h0 : ptrAt (vol.disk t) idx = 0
  · rw [if_neg (by simpa using h0)] at hk
    rcases h.toLaidOut.newBlock true with ⟨hnone, heq⟩ | ⟨b, ho, heq, -, hview, -⟩
    · rw [isEmpty_nil, heq, if_pos rfl] at hk
      have hz := hk.same
      rw [hsite] at hz
      exact ⟨h0.trans hz.symm, fun _ hroom => absurd hnone hroom⟩
    rw [isEmpty_nil, heq, if_neg (ho.ne_zero hg), Volume.descend] at hk
    obtain ⟨hw, -⟩ := (vol.newBlock true).1.metaWriteBlock_spec t (setPtr (vol.disk t) idx b)
    have hz : ptrAt (vol.view t) idx = 0 := by
      by_contra hne
      rw [← hsite] at hne
      exact h.fresh ho.old (ho.ne_zero hg) _ (hk.kept hne).symm
    refine ⟨h0.trans hz.symm, fun _ _ j => ?_⟩
    by_cases hj : j = idx
    · rw [hj, h0, hz]
    have hother := hk.others (r, [j]) (by simpa using hj) hr.symm
    rwa [hsite, hsite, hw, update_self, ptrAt_setPtr_ne _ _ hj] at hother
  · rw [if_pos h0, Volume.descend] at hk
    have hz := hk.same
    rw [hsite] at hz
    exact ⟨hz.symm, fun h' => absurd (hz.symm.trans h') h0⟩

private theorem TxnInode.lastServes {idx : ℕ}
    (hm : Maps g vol i (.indirect, [idx]) (vol.resolveAt i .indirect [idx]).1
      (vol.resolveAt i .indirect [idx]).2.1 (vol.resolveAt i .indirect [idx]).2.2.1) :
    LastServes g vol vol.reread vol.blockBitmap i.indirect.toNat idx := by
  refine ⟨fun h0 => ?_, fun h0 t' ht' => ?_⟩
  · have h0' : i.root .indirect ≠ 0 := h0
    rw [Volume.resolveAt, if_pos h0'] at hm
    dsimp only at hm
    exact h.serves_of_keeps rfl rfl h0 hm.keeps
  rcases h.newRoot (r := .indirect) (q := [idx]) (by simp) rfl h0 with
    ⟨hnone, -⟩ | ⟨b, v, hnext, ho, hrefs, hT, hroot, hzero, -, heq⟩
  · rw [hnone] at ht'
    cases ht'
  obtain rfl := Option.some.inj (hnext.symm.trans ht')
  obtain ⟨hz, hback⟩ := hzero (by simp)
  rw [heq] at hm
  dsimp only at hm
  have hk := hm.keeps
  rw [← Keeps.update_iff (v := b) (u := (.indirect, [])) rfl (by decide), ← hrefs] at hk
  have hs := hT.serves_of_keeps rfl hroot (ho.ne_zero h.geometry) hk
  rwa [hz, hback, ho.bitmap] at hs

end

private theorem TablesAgree.agree (hagree : TablesAgree g vol i fb) :
    (i.root (rootOf fb) ≠ 0 → Agree g vol vol.stale (pathOf fb).reverse vol.blockBitmap
      (vol.disk (i.root (rootOf fb))) (vol.view (i.root (rootOf fb)))) ∧
    (i.root (rootOf fb) = 0 → ∀ t, nextFree g vol.blockBitmap = some t → Agree g vol vol.stale
      (pathOf fb).reverse (bitmapSet vol.blockBitmap t) (vol.reread t) zeroBlock) := by
  unfold TablesAgree at hagree
  dsimp only at hagree
  unfold rootOf pathOf
  split_ifs at hagree ⊢
  · exact ⟨fun _ => trivial, fun _ _ _ => trivial⟩
  · exact ⟨fun h0 => agree_singleton.mpr (hagree.1 h0),
      fun h0 t ht => agree_singleton.mpr (hagree.2 h0 t ht)⟩
  · exact ⟨fun h0 => (hagree.1 h0).agree, fun h0 t ht => (hagree.2 h0 t ht).agree⟩

/-- Resolution inside a transaction: it does what it should in the staged view if the tables on
the way agree; up to the last block of the indirect table, only then. -/
theorem resolveBlock_in_txn (h : TxnInode g vol i) (hfb : fb < maxDirBlocks) :
    (TablesAgree g vol i fb → ResolvesWell g vol i fb (vol.resolveBlock i fb true)) ∧
      (fb < 524 → ResolvesWell g vol i fb (vol.resolveBlock i fb true) →
        TablesAgree g vol i fb) := by
  rw [resolvesWell_iff hfb, resolveBlock_true vol i hfb]
  refine ⟨fun hagree => ?_, fun h2 hm => ?_⟩
  · have hmaps := h.resolveAt (fun k => lt_of_rootOf)
      ((length_reverse ..).trans (length_pathOf fb))
      (fun j hj => lt_of_mem_pathOf hfb (mem_reverse.mp hj)) hagree.agree.1 hagree.agree.2
    rwa [reverse_reverse] at hmaps
  · by_cases h1 : fb < 12
    · simp [TablesAgree, h1]
    unfold TablesAgree
    dsimp only
    rw [if_neg h1, if_pos h2]
    simp only [rootOf, pathOf, if_neg h1, if_pos h2, reverse_singleton] at hm
    exact h.lastServes hm

end Resolve

end

theorem Consistent.txnInode {g : Superblock} {vol : Volume} (h : Consistent g vol) (n : ℕ) :
    TxnInode g vol.journalBegin (inodeTable g vol.disk n) := by
  obtain ⟨hm, -, -⟩ := h.rest.mid.journalBegin h.rest.idle
  have hsite : ∀ s, txnRefs vol.journalBegin (inodeTable g vol.disk n) s =
      siteRef (diskRoots g vol.disk) vol.journalBegin.view ((n, s.1), s.2) := fun s =>
    (siteRef_eq_refAt (fun r => rfl) vol.journalBegin.view s.1 s.2).symm
  refine ⟨hm.laidOut, fun {a b} ha hab => ?_, fun {a} ha => ?_⟩
  · rw [hsite] at ha
    rw [hsite, hsite] at hab
    obtain ⟨hroot, hpath⟩ := Prod.mk.inj (hm.owned.unique ha hab)
    exact Prod.ext (Prod.mk.inj hroot).2 hpath
  · rw [hsite] at ha ⊢
    exact hm.owned.ok ha

def sampleTxn : Volume := sampleFs.vol.journalBegin

/-- A transaction after a file was written and removed: the next free block holds its bytes. -/
def recycledTxn : Volume := (run sampleFs sampleCalls).vol.journalBegin

theorem sampleTxn_blank : TxnInode sampleSuperblock sampleTxn blank :=
  sampleFs_start.consistent.txnInode 4096

theorem TxnInode.blank_disk {g : Superblock} {vol : Volume} (h : TxnInode g vol blank)
    (d : ℕ → Block) : TxnInode g { vol with disk := d } blank := by
  have hz : ∀ s, txnRefs { vol with disk := d } blank s = 0 := fun s =>
    ref_of_root_eq_zero (root_blank s.1) s.2
  exact ⟨⟨h.geometry, h.sb, h.reserved⟩, fun hne => absurd (hz _) hne, fun hne => absurd (hz _) hne⟩

/-- The sample transaction with a device that holds zeros only. -/
def clearTxn : Volume := { sampleTxn with disk := fun _ => zeroBlock }

theorem clearTxn_resolves : ResolvesWell sampleSuperblock clearTxn blank 12
    (clearTxn.resolveBlock blank 12 true) := by
  have hT : TxnInode sampleSuperblock clearTxn blank := sampleTxn_blank.blank_disk _
  have hclear : ∀ t, clearTxn.reread t = zeroBlock := by
    intro t
    unfold reread
    split_ifs <;> rfl
  refine (resolveBlock_in_txn hT (by decide)).1 ⟨fun hne => absurd rfl hne, fun _ t _ => ?_⟩
  rw [hclear]
  exact serves_zero _ _

/-- The inode and the volume of `sampleTxn` after block 12 was resolved in it. -/
def grownTxn : Volume × Inode × ℕ × Bool := sampleTxn.resolveBlock blank 12 true

/-- The bytes of the removed file are taken for a block number; and a second resolution in the
same transaction loses the block of the first. -/
theorem resolveBlock_misreads : (recycledTxn.resolveBlock blank 12 true).2.2.1 = 26984 ∧
    ¬ ResolvesWell sampleSuperblock recycledTxn blank 12
      (recycledTxn.resolveBlock blank 12 true) ∧
    blockAt grownTxn.1.view grownTxn.2.1 12 = 259 ∧
    ¬ ResolvesWell sampleSuperblock grownTxn.1 grownTxn.2.1 13
      (grownTxn.1.resolveBlock grownTxn.2.1 13 true) := by
  refine ⟨by decide +kernel, fun h => ?_, by decide +kernel, fun h => ?_⟩
  · exact absurd h.again (by decide +kernel)
  · exact absurd (h.others 12 (by decide)) (by decide +kernel)

end Exploidus.Exfs
