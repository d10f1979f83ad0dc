import Exploidus.Exfs.Ownership

/-! What `exfs_resolve_block` does to the forest of pointers: a lookup reads one site, an
allocating resolution adds references to fresh blocks along one path and changes no other. -/
namespace Exploidus.Exfs
open Refs Function Inode List Volume Root

/-- The inode pointer logical block `fb` is found under. -/
def rootOf (fb : ℕ) : Root :=
  if fb < 12 then .direct fb else if fb < 524 then .indirect else .doubleIndirect

def pathOf (fb : ℕ) : List ℕ :=
  if fb < 12 then [] else if fb < 524 then [fb - 12] else [(fb - 524) % 512, (fb - 524) / 512]

/-- The disk block of logical block `fb` of an inode, 0 when unmapped or out of range. -/
def blockAt (d : ℕ → Block) (i : Inode) (fb : ℕ) : ℕ :=
  if fb < maxDirBlocks then
    refAt depth i.root (fun t j => ptrAt (d t) j) (rootOf fb) (pathOf fb)
  else 0

theorem length_pathOf (fb : ℕ) : (pathOf fb).length = (rootOf fb).depth := by
  unfold pathOf rootOf
  split_ifs <;> rfl

theorem pathOf_inj {fb fb' : ℕ} (hr : rootOf fb = rootOf fb') (hp : pathOf fb = pathOf fb') :
    fb = fb' := by
  unfold rootOf at hr
  unfold pathOf at hp
  split_ifs at hr hp with h1 h2 h3 h4 <;> simp at hr hp <;> omega

theorem lt_of_rootOf {fb k : ℕ} (h : rootOf fb = .direct k) : k < 12 := by
  unfold rootOf at h
  split_ifs at h with h1
  exact direct.inj h ▸ h1

theorem lt_of_mem_pathOf {fb j : ℕ} (hfb : fb < maxDirBlocks) (hj : j ∈ pathOf fb) : j < 512 := by
  unfold maxDirBlocks at hfb
  unfold pathOf at hj
  split_ifs at hj <;> simp at hj <;> omega

theorem siteRef_eq_refAt {R : ℕ × Root → ℕ} {i : Inode} {n : ℕ} (h : ∀ r, R (n, r) = i.root r)
    (d : ℕ → Block) (r : Root) (p : List ℕ) :
    siteRef R d ((n, r), p) = refAt depth i.root (fun t j => ptrAt (d t) j) r p := by
  induction p with
  | nil => exact h r
  | cons j p ih =>
    rw [siteRef, ref_cons, refAt, ← ih]
    rfl

theorem siteRef_eq_blockAt {R : ℕ × Root → ℕ} {i : Inode} {n : ℕ}
    (h : ∀ r, R (n, r) = i.root r) (d : ℕ → Block) {fb : ℕ} (hfb : fb < maxDirBlocks) :
    siteRef R d ((n, rootOf fb), pathOf fb) = blockAt d i fb := by
  rw [blockAt, if_pos hfb, siteRef_eq_refAt h]

@[simp] theorem withInode_self (R : ℕ × Root → ℕ) (n : ℕ) (i : Inode) (r : Root) :
    withInode R n i (n, r) = i.root r := if_pos rfl

theorem withInode_of_ne (R : ℕ × Root → ℕ) {n m : ℕ} (i : Inode) (r : Root) (h : m ≠ n) :
    withInode R n i (m, r) = R (m, r) := if_neg h

namespace Volume

theorem blockAt_direct (d : ℕ → Block) (i : Inode) {fb : ℕ} (h : fb < 12) :
    blockAt d i fb = i.directAt fb := by
  rw [blockAt, if_pos (by unfold maxDirBlocks; omega), rootOf, if_pos h, pathOf, if_pos h]
  rfl

section
variable (vol : Volume)

private theorem tableEntry_false (tbl : ℕ) (buf : Block) (idx : ℕ) :
    vol.tableEntry tbl buf idx false = (vol, ptrAt buf idx) := by
  by_cases h : ptrAt buf idx = 0 <;> simp [tableEntry, h]

private theorem ensureTable_false (p : ℕ) : vol.ensureTable p false = (vol, p, false) := by
  by_cases h : p = 0 <;> simp [ensureTable, h]

private theorem midTable_false (tbl idx : ℕ) :
    vol.midTable tbl idx false = (vol, ptrAt (vol.disk tbl) idx) := by
  simp [midTable, ensureTable_false, readBlock]

theorem resolveBlock_of_ge (i : Inode) {fb : ℕ} (h : ¬ fb < maxDirBlocks)
    (alloc : Bool) : vol.resolveBlock i fb alloc = (vol, i, 0, false) := by
  unfold maxDirBlocks at h
  rw [resolveBlock, if_neg (by omega), if_neg (by omega), if_neg (by omega)]

theorem resolveBlock_false (i : Inode) (fb : ℕ) :
    vol.resolveBlock i fb false = (vol, i, blockAt vol.disk i fb, false) := by
  by_cases hmax : fb < maxDirBlocks
  swap
  · rw [blockAt, if_neg hmax, resolveBlock_of_ge _ _ hmax]
  rw [blockAt, if_pos hmax, rootOf, pathOf, resolveBlock]
  by_cases h1 : fb < 12
  · by_cases h : i.directAt fb = 0 <;> simp [h1, h, refAt, root]
  by_cases h2 : fb < 524
  · have hidx : fb - 12 < 512 := by omega
    by_cases h : i.indirect.toNat = 0 <;>
      simp [h1, h2, hidx, h, ensureTable_false, tableEntry_false, refAt, slot, depth,
        root, readBlock]
  have hidx : ¬ fb - 12 < 512 := by omega
  have hidx' : fb - 524 < 512 * 512 := by unfold maxDirBlocks at hmax; omega
  rw [show fb - 12 - 512 = fb - 524 by omega]
  by_cases h : i.doubleIndirect.toNat = 0
  · simp [h1, h2, hidx, hidx', h, ensureTable_false, refAt, slot, depth, root]
  by_cases h' : ptrAt (vol.disk i.doubleIndirect.toNat) ((fb - 524) / 512) = 0 <;>
    simp [h1, h2, hidx, hidx', h, h', ensureTable_false, midTable_false, tableEntry_false, refAt,
      slot, depth, root, readBlock]

theorem blockOf_eq (i : Inode) (fb : ℕ) : vol.blockOf i fb = blockAt vol.disk i fb := by
  rw [blockOf, resolveBlock_false]

end

end Volume

def Inode.setRoot (i : Inode) (r : Root) (v : ℕ) : Inode :=
  match r with
  | .direct k => i.setDirect k v
  | .indirect => { i with indirect := UInt64.ofNat v }
  | .doubleIndirect => { i with doubleIndirect := UInt64.ofNat v }

theorem Inode.root_setRoot_self (i : Inode) {r : Root} {v : ℕ} (hv : v < 2 ^ 64)
    (hr : ∀ k, r = .direct k → k < 12) : (i.setRoot r v).root r = v := by
  have h64 : (UInt64.ofNat v).toNat = v := UInt64.toNat_ofNat_of_lt' hv
  cases r with
  | direct k => simp [setRoot, root, setDirect, directAt, hr k rfl, h64]
  | indirect => exact h64
  | doubleIndirect => exact h64

theorem Inode.root_setRoot_ne (i : Inode) {r r' : Root} (v : ℕ) (h : r' ≠ r) :
    (i.setRoot r v).root r' = i.root r' := by
  cases r <;> cases r' <;> try rfl
  · rename_i k k'
    have hne : k' ≠ k := fun he => h (by rw [he])
    simp [setRoot, root, setDirect, directAt, hne]
  · exact absurd rfl h
  · exact absurd rfl h

namespace Volume

/-- The block for an empty pointer: a data block, or a cleared pointer block. -/
def newBlock (vol : Volume) (leaf : Bool) : Volume × ℕ :=
  if leaf then vol.allocBlock else vol.allocTable

/-- The way down from pointer block `t` along the indices `q`. An empty entry is filled, and its
table written back. -/
def descend : Volume → ℕ → List ℕ → Volume × ℕ
  | vol, t, [] => (vol, t)
  | vol, t, idx :: q =>
    let a := vol.newBlock q.isEmpty
    if ptrAt (vol.disk t) idx ≠ 0 then vol.descend (ptrAt (vol.disk t) idx) q
    else if a.2 = 0 then a
    else (a.1.metaWriteBlock t (setPtr (vol.disk t) idx a.2)).descend a.2 q

/-- An allocating resolution of the block under the inode pointer `r` at the indices `q`. -/
def resolveAt (vol : Volume) (i : Inode) (r : Root) (q : List ℕ) : Volume × Inode × ℕ × Bool :=
  let a := vol.newBlock q.isEmpty
  if i.root r ≠ 0 then ((vol.descend (i.root r) q).1, i, (vol.descend (i.root r) q).2, false)
  else if a.2 = 0 then (a.1, i, 0, false)
  else ((a.1.descend a.2 q).1, i.setRoot r a.2, (a.1.descend a.2 q).2, true)

private theorem tableEntry_true (vol : Volume) (t idx : ℕ) :
    vol.tableEntry t (vol.disk t) idx true = vol.descend t [idx] := by
  by_cases h : ptrAt (vol.disk t) idx = 0 <;> simp [tableEntry, descend, newBlock, h]

private theorem mid_true (vol : Volume) (t idx j : ℕ) : (let m := vol.midTable t idx true
    if m.2 = 0 then (m.1, 0) else m.1.descend m.2 [j]) = vol.descend t [idx, j] := by
  by_cases h : ptrAt (vol.disk t) idx = 0
  · by_cases h' : vol.allocTable.2 = 0
    · have hnone : vol.allocTable = (vol.allocTable.1, 0) := Prod.ext rfl h'
      simp [midTable, ensureTable, readBlock, h, h', descend, newBlock, ← hnone]
    · simp [midTable, ensureTable, readBlock, h, h', descend, newBlock]
  · simp [midTable, ensureTable, readBlock, h, descend]

theorem resolveBlock_true (vol : Volume) (i : Inode) {fb : ℕ} (hfb : fb < maxDirBlocks) :
    vol.resolveBlock i fb true = vol.resolveAt i (rootOf fb) (pathOf fb).reverse := by
  by_cases h1 : fb < 12
  · by_cases h : i.directAt fb = 0 <;>
      simp [resolveBlock, resolveAt, rootOf, pathOf, h1, h, root, newBlock, descend, setRoot]
  by_cases h2 : fb < 524
  · have hidx : fb - 12 < 512 := by omega
    by_cases h : i.indirect.toNat = 0
    · by_cases h' : vol.allocTable.2 = 0 <;>
        simp [resolveBlock, resolveAt, rootOf, pathOf, h1, h2, hidx, h, h', root, newBlock,
          ensureTable, readBlock, tableEntry_true, setRoot]
    · simp [resolveBlock, resolveAt, rootOf, pathOf, h1, h2, hidx, h, root,
        ensureTable, readBlock, tableEntry_true]
  have hidx : ¬ fb - 12 < 512 := by omega
  have hidx' : fb - 524 < 512 * 512 := by unfold maxDirBlocks at hfb; omega
  have h524 : fb - 12 - 512 = fb - 524 := by omega
  simp only [resolveBlock, resolveAt, rootOf, pathOf, if_neg h1, if_neg h2, if_neg hidx, h524,
    if_pos hidx', reverse_cons, reverse_nil, nil_append, cons_append,
    readBlock, tableEntry_true, ← mid_true]
  generalize (fb - 524) / 512 = j
  generalize (fb - 524) % 512 = k
  by_cases h : i.doubleIndirect.toNat = 0
  · by_cases h' : vol.allocTable.2 = 0
    · simp [h, h', root, newBlock, ensureTable]
    · by_cases hm : (vol.allocTable.1.midTable vol.allocTable.2 j true).2 = 0 <;>
        simp [h, h', hm, root, newBlock, ensureTable, setRoot]
  · by_cases hm : (vol.midTable i.doubleIndirect.toNat j true).2 = 0 <;>
      simp [h, hm, root, ensureTable]

end Volume

structure Grew (g : Superblock) (r : ℕ × Root) (path : List ℕ) (k : ℕ) (R R' : ℕ × Root → ℕ)
    (vol vol' : Volume) : Prop where
  mid : Mid g R' vol'
  runs : Runs g vol vol'
  active : vol'.jtxnActive = vol.jtxnActive
  length : vol'.jtxn.length ≤ vol.jtxn.length + k
  mono : ∀ b, bitmapGet vol.blockBitmap b = true → bitmapGet vol'.blockBitmap b = true
  added : ∀ s, siteRef R' vol'.view s = siteRef R vol.view s ∨
    (s.1 = r ∧ s.2 <:+ path ∧ siteRef R vol.view s = 0 ∧
      bitmapGet vol.blockBitmap (siteRef R' vol'.view s) = false)
  view : ∀ b, InBody g b → bitmapGet vol.blockBitmap b = true →
    (∀ p, p <:+ path → p.length < r.2.depth → siteRef R vol.view (r, p) ≠ b) →
      vol'.view b = vol.view b
  free : ∀ b, InBody g b → bitmapGet vol.blockBitmap b = false →
    (∀ p, p <:+ path → p.length < r.2.depth → siteRef R' vol'.view (r, p) ≠ b) →
      vol'.view b = vol.view b
  disk : vol.jtxnActive = true → ∀ b, InBody g b → vol'.disk b = vol.disk b

section Grew
variable {g : Superblock} {r : ℕ × Root} {path : List ℕ} {R R' R'' : ℕ × Root → ℕ}
  {vol vol' vol'' : Volume}

theorem Grew.refl (hm : Mid g R vol) : Grew g r path 0 R R vol vol :=
  ⟨hm, Runs.of_eq hm.crash rfl rfl, rfl, le_rfl, fun _ h => h, fun _ => .inl rfl,
    fun _ _ _ _ => rfl, fun _ _ _ _ => rfl, fun _ _ _ => rfl⟩

theorem Grew.weaken {k l : ℕ} (h : Grew g r path k R R' vol vol') (hkl : k ≤ l) :
    Grew g r path l R R' vol vol' :=
  ⟨h.mid, h.runs, h.active, by have := h.length; omega, h.mono, h.added, h.view, h.free, h.disk⟩

theorem Grew.trans {k l : ℕ} (h : Grew g r path k R R' vol vol')
    (h' : Grew g r path l R' R'' vol' vol'') : Grew g r path (k + l) R R'' vol vol'' := by
  have hbit : ∀ b, bitmapGet vol'.blockBitmap b = false → bitmapGet vol.blockBitmap b = false := by
    intro b hb
    by_contra hne
    rw [h.mono b (by simpa using hne)] at hb
    exact absurd hb (by decide)
  refine ⟨h'.mid, h.runs.trans h'.runs, h'.active.trans h.active, ?_,
    fun b hb => h'.mono b (h.mono b hb), fun s => ?_, fun b hb hused htab => ?_,
    fun b hb hunused htab => ?_, fun hact b hb => ?_⟩
  · have := h.length
    have := h'.length
    omega
  · rcases h'.added s with he' | ⟨hr, hp, h0, hb⟩
    · rcases h.added s with he | ⟨hr, hp, h0, hb⟩
      · exact .inl (he'.trans he)
      · exact .inr ⟨hr, hp, h0, by rw [he']; exact hb⟩
    · rcases h.added s with he | ⟨-, -, h00, -⟩
      · exact .inr ⟨hr, hp, by rw [← he, h0], hbit _ hb⟩
      · exact .inr ⟨hr, hp, h00, hbit _ hb⟩
  · rw [h'.view b hb (h.mono b hused), h.view b hb hused htab]
    intro p hp hlen heq
    rcases h.added (r, p) with he | ⟨-, -, -, hfresh⟩
    · exact htab p hp hlen (he ▸ heq)
    rw [heq, hused] at hfresh
    exact absurd hfresh (by decide)
  · have hmid : ∀ p, p <:+ path → p.length < r.2.depth → siteRef R' vol'.view (r, p) ≠ b := by
      intro p hp hlen heq
      rcases h'.added (r, p) with he | ⟨-, -, h0, -⟩
      · exact htab p hp hlen (he.trans heq)
      have hlo := hb.1
      have := h.mid.geometry.inodeTableBlock
      omega
    rw [← h.free b hb hunused hmid]
    cases hb' : bitmapGet vol'.blockBitmap b with
    | true => exact h'.view b hb hb' hmid
    | false => exact h'.free b hb hb' htab
  · rw [h'.disk (by rw [h.active]; exact hact) b hb, h.disk hact b hb]

structure Fresh (g : Superblock) (R : ℕ × Root → ℕ) (vol : Volume) (b k : ℕ) (z : Prop)
    (vol' : Volume) : Prop where
  mid : Mid g R vol'
  runs : Runs g vol vol'
  active : vol'.jtxnActive = vol.jtxnActive
  length : vol'.jtxn.length ≤ vol.jtxn.length + k
  mono : ∀ c, bitmapGet vol.blockBitmap c = true → bitmapGet vol'.blockBitmap c = true
  inData : InData g b
  old : bitmapGet vol.blockBitmap b = false
  new : bitmapGet vol'.blockBitmap b = true
  next : findClear vol.blockBitmap (g.totalBlocks - g.dataStartBlock) g.dataStartBlock = some b ∧
    vol'.blockBitmap = bitmapSet vol.blockBitmap b
  view : ∀ c, InBody g c → c ≠ b → vol'.view c = vol.view c
  disk : vol.jtxnActive = true → ∀ c, InBody g c → vol'.disk c = vol.disk c
  zeroed : z → vol'.view b = zeroBlock
  raw : ¬ z → vol'.view b = vol.view b
  sites : siteRef R vol'.view = siteRef R vol.view

theorem Mid.fresh_allocBlock (hm : Mid g R vol) (h0 : vol.allocBlock.2 ≠ 0) :
    Fresh g R vol vol.allocBlock.2 0 False vol.allocBlock.1 := by
  have ha := hm.allocBlock
  obtain ⟨hin, hold, hnew⟩ := ha.fresh h0
  exact ⟨ha.mid, ha.runs, ha.active, by rw [ha.jtxn, Nat.add_zero], ha.mono, hin, hold, hnew,
    ha.next h0, fun c hc _ => ha.view c hc, fun _ => ha.disk, False.elim,
    fun _ => ha.view _ (hm.geometry.inBody_of_inData hin),
    siteRef_congr_inData hm.owned fun c hc => ha.view c (hm.geometry.inBody_of_inData hc)⟩

theorem Mid.allocTable_eq (hm : Mid g R vol) : vol.allocTable =
    if vol.allocBlock.2 = 0 then (vol, 0)
    else (vol.allocBlock.1.metaWriteBlock vol.allocBlock.2 zeroBlock, vol.allocBlock.2) := by
  unfold allocTable
  dsimp only
  split_ifs with h0
  · exact Prod.ext (hm.allocBlock.full h0) h0
  · rfl

theorem Mid.fresh_allocTable (hm : Mid g R vol)
    (hroom : vol.jtxnActive → vol.jtxn.length < 16) (h0 : vol.allocTable.2 ≠ 0) :
    Fresh g R vol vol.allocTable.2 1 True vol.allocTable.1 := by
  rw [hm.allocTable_eq] at h0 ⊢
  split_ifs at h0 ⊢ with hz
  · exact absurd rfl h0
  have hg := hm.geometry
  have ha := hm.allocBlock
  have hf := hm.fresh_allocBlock hz
  have hsites : siteRef R (update vol.allocBlock.1.view vol.allocBlock.2 zeroBlock) =
      siteRef R vol.allocBlock.1.view := by
    apply siteRef_congr
    intro r p _ _
    exact update_of_ne (ha.fresh_site hm hz (r, p)) _ _
  have hown : Owned (siteRef R (update vol.allocBlock.1.view vol.allocBlock.2 zeroBlock))
      fun b => InData g b ∧ bitmapGet vol.allocBlock.1.blockBitmap b := by
    rw [hsites]
    exact ha.mid.owned
  have hw := ha.mid.metaWriteBlock (by rw [ha.active, ha.jtxn]; exact hroom)
    (hg.inBody_of_inData hf.inData) zeroBlock hown (by
      intro hidle x
      rw [diskRoots_update_data hg _ hf.inData]
      exact ha.mid.below hidle x)
  refine ⟨hw.mid, ha.runs.trans hw.runs, hw.active.trans ha.active, ?_, ?_, hf.inData, hf.old,
    ?_, ⟨hf.next.1, by rw [hw.bitmap]; exact hf.next.2⟩, fun c hc hne => ?_,
    fun hact c hc => ?_, fun _ => ?_, fun h => absurd trivial h, ?_⟩
  · have := hw.length
    rwa [ha.jtxn] at this
  · rw [hw.bitmap]
    exact ha.mono
  · rw [hw.bitmap]
    exact hf.new
  · rw [hw.view, update_of_ne hne]
    exact ha.view c hc
  · rw [hw.disk (by rw [ha.active]; exact hact)]
    exact ha.disk c hc
  · rw [hw.view, update_self]
  · rw [hw.view, hsites]
    exact hf.sites

theorem Fresh.linkRoot {n b k : ℕ} {r : Root} {z : Prop} {i i' : Inode}
    (hf : Fresh g (withInode R n i) vol b k z vol')
    (hm : Mid g (withInode R n i) vol) (h0 : i.root r = 0) (hr : i'.root r = b)
    (hother : ∀ r', r' ≠ r → i'.root r' = i.root r') (hz : 0 < r.depth ↔ z) (path : List ℕ) :
    Grew g (n, r) path k (withInode R n i) (withInode R n i') vol vol' ∧
      siteRef (withInode R n i') vol'.view =
        update (siteRef (withInode R n i) vol.view) ((n, r), []) b := by
  have hR : withInode R n i' = update (withInode R n i) (n, r) b := by
    funext x
    obtain ⟨m, r'⟩ := x
    by_cases hx : (m, r') = (n, r)
    · obtain ⟨rfl, rfl⟩ := Prod.mk.inj hx
      rw [update_self, withInode_self, hr]
    rw [update_of_ne hx]
    by_cases hmn : m = n
    · subst hmn
      rw [withInode_self, withInode_self, hother r' fun he => hx (by rw [he])]
    · rw [withInode_of_ne _ _ _ hmn, withInode_of_ne _ _ _ hmn]
  have hsite : siteRef (withInode R n i') vol'.view =
      update (siteRef (withInode R n i) vol'.view) ((n, r), []) b := by
    rw [hR]
    refine ref_update_root (by simpa using h0) fun hdepth j => ?_
    rw [hf.zeroed (hz.mp hdepth), ptrAt_zeroBlock]
  have hfresh : ∀ s, siteRef (withInode R n i) vol'.view s ≠ b := by
    intro s
    rw [hf.sites]
    exact hm.fresh hf.old s
  have hmid : Mid g (withInode R n i') vol' := by
    refine ⟨hf.mid.geometry, hf.mid.sb, hf.mid.staging, hf.mid.reserved, hf.mid.flushed, ?_,
      hf.mid.safe, fun hidle x => ?_⟩
    · rw [hsite]
      exact hf.mid.owned.update hfresh ⟨hf.inData, hf.new⟩
    rcases hf.mid.below hidle x with h | h
    · exact .inl h
    by_cases hx : x = (n, r)
    · left
      rw [h, hx, withInode_self, h0]
    · right
      rw [h, hR, update_of_ne hx]
  refine ⟨⟨hmid, hf.runs, hf.active, hf.length, hf.mono, fun s => ?_, fun c hc hused _ => ?_,
    fun c hc _ htab => ?_, hf.disk⟩, ?_⟩
  · by_cases hs : s = ((n, r), [])
    · right
      rw [hs, hsite, update_self]
      exact ⟨rfl, nil_suffix, by simpa [siteRef] using h0, hf.old⟩
    · left
      rw [hsite, update_of_ne hs, hf.sites]
  · refine hf.view c hc fun he => ?_
    rw [he, hf.old] at hused
    exact absurd hused (by decide)
  · by_cases hcb : c = b
    · subst hcb
      refine hf.raw fun h => htab [] nil_suffix (hz.mpr h) ?_
      rw [hsite, update_self]
    · exact hf.view c hc hcb
  · rw [hsite, hf.sites]

theorem Fresh.linkEntry {b k idx : ℕ} {p : List ℕ} {z : Prop}
    (hf : Fresh g R vol b k z vol') (hm : Mid g R vol)
    (hroom : vol.jtxnActive → vol.jtxn.length + k < 16)
    (hlt : p.length < r.2.depth) (ht : siteRef R vol.view (r, p) ≠ 0) (hidx : idx < 512)
    (h0 : ptrAt (vol.view (siteRef R vol.view (r, p))) idx = 0) (hp : idx :: p <:+ path)
    (hz : p.length + 1 < r.2.depth ↔ z) :
    Grew g r path (k + 1) R R vol (vol'.metaWriteBlock (siteRef R vol.view (r, p))
        (setPtr (vol.view (siteRef R vol.view (r, p))) idx b)) ∧
      siteRef R (vol'.metaWriteBlock (siteRef R vol.view (r, p))
        (setPtr (vol.view (siteRef R vol.view (r, p))) idx b)).view =
          update (siteRef R vol.view) (r, idx :: p) b ∧
      (vol'.metaWriteBlock (siteRef R vol.view (r, p))
        (setPtr (vol.view (siteRef R vol.view (r, p))) idx b)).view b = vol'.view b := by
  have hg := hm.geometry
  obtain ⟨htin, htused⟩ := hm.owned.ok ht
  have htb : siteRef R vol.view (r, p) ≠ b := hm.fresh hf.old (r, p)
  have hvt := hf.view _ (hg.inBody_of_inData htin) htb
  have hfresh : ∀ s, siteRef R vol'.view s ≠ b := by
    intro s
    rw [hf.sites]
    exact hm.fresh hf.old s
  have hb64 := hg.lt_of_inData hf.inData
  generalize htdef : siteRef R vol.view (r, p) = t at *
  have hsite : siteRef R (update vol'.view t (setPtr (vol.view t) idx b)) =
      update (siteRef R vol'.view) (r, idx :: p) b := by
    have ht' : siteRef R vol'.view (r, p) = t := by rw [hf.sites, htdef]
    unfold siteRef at ht' ⊢
    refine ref_update_entry hf.mid.owned hlt (by rw [ht']; exact ht) ?_ ?_ ?_ ?_ ?_
    · rw [ht', hvt]
      exact h0
    · intro hdepth j
      rw [update_of_ne htb.symm, hf.zeroed (hz.mp hdepth), ptrAt_zeroBlock]
    · rw [ht', update_self, ptrAt_setPtr_self _ hidx hb64]
    · intro j hj
      rw [ht', update_self, ptrAt_setPtr_ne _ _ hj, hvt]
    · intro r' p' _ _ hne j
      rw [update_of_ne (by rw [ht'] at hne; exact hne)]
  have hown : Owned (siteRef R (update vol'.view t (setPtr (vol.view t) idx b)))
      fun b => InData g b ∧ bitmapGet vol'.blockBitmap b = true := by
    rw [hsite]
    exact hf.mid.owned.update hfresh ⟨hf.inData, hf.new⟩
  have hw := hf.mid.metaWriteBlock
    (by have := hf.length; rw [hf.active]; intro hact; have := hroom hact; omega)
    (hg.inBody_of_inData htin) (setPtr (vol.view t) idx b) hown
    (by
      intro hidle x
      rw [diskRoots_update_data hg _ htin]
      exact hf.mid.below hidle x)
  refine ⟨⟨hw.mid, hf.runs.trans hw.runs, hw.active.trans hf.active, ?_, ?_, fun s => ?_,
    fun c hc hused htab => ?_, fun c hc hunused htab => ?_, fun hact c hc => ?_⟩, ?_, ?_⟩
  · have := hw.length
    have := hf.length
    omega
  · rw [hw.bitmap]
    exact hf.mono
  · rw [hw.view, hsite, hf.sites]
    by_cases hs : s = (r, idx :: p)
    · right
      rw [hs, update_self]
      refine ⟨rfl, hp, ?_, hf.old⟩
      rw [siteRef_cons hlt, htdef, slot_of_ne ht, h0]
    · left
      rw [update_of_ne hs]
  · have hct : c ≠ t := by
      have hsuf : p <:+ path := (suffix_cons idx p).trans hp
      have := htab p hsuf hlt
      rw [htdef] at this
      exact this.symm
    rw [hw.view, update_of_ne hct]
    refine hf.view c hc fun he => ?_
    rw [he, hf.old] at hused
    exact absurd hused (by decide)
  · have hct : c ≠ t := by
      rintro rfl
      rw [htused] at hunused
      exact absurd hunused (by decide)
    rw [hw.view, update_of_ne hct]
    by_cases hcb : c = b
    · subst hcb
      refine hf.raw fun h => htab (idx :: p) hp (hz.mpr h) ?_
      rw [hw.view, hsite, update_self]
    · exact hf.view c hc hcb
  · rw [hw.disk (by rw [hf.active]; exact hact)]
    exact hf.disk hact c hc
  · rw [hw.view, hsite, hf.sites]
  · rw [hw.view, update_of_ne htb.symm]

/-- The next `m` blocks the allocator would hand out with bitmap `bm` read as zeros on `d`. -/
def CleanFree (g : Superblock) (d : ℕ → Block) : ℕ → (ℕ → UInt8) → Prop
  | 0, _ => True
  | m + 1, bm => ∀ b, findClear bm (g.totalBlocks - g.dataStartBlock) g.dataStartBlock = some b →
      d b = zeroBlock ∧ CleanFree g d m (bitmapSet bm b)

theorem CleanFree.congr {d d' : ℕ → Block} {m : ℕ} {bm : ℕ → UInt8}
    (h : CleanFree g d m bm) (hres : ∀ b, g.journalBlock ≤ b → b < g.totalBlocks →
      bitmapGet bm b)
    (hd : ∀ b, InData g b → d' b = d b) : CleanFree g d' m bm := by
  induction m generalizing bm with
  | zero => trivial
  | succ m ih =>
    intro b hb
    obtain ⟨hz, hnext⟩ := h b hb
    obtain ⟨hlo, hhi, hbit⟩ := findClear_eq_some hb
    have hin : InData g b := by
      refine ⟨hlo, ?_⟩
      by_contra hge
      rw [hres b (by omega) (by omega)] at hbit
      exact absurd hbit (by decide)
    refine ⟨by rw [hd b hin, hz], ih hnext fun c hc hc' => ?_⟩
    rw [bitmapGet_bitmapSet, hres c hc hc', Bool.or_true]

theorem CleanFree.of_succ {d : ℕ → Block} {m : ℕ} {bm : ℕ → UInt8}
    (h : CleanFree g d (m + 1) bm) : CleanFree g d m bm := by
  induction m generalizing bm with
  | zero => trivial
  | succ m ih => exact fun b hb => ⟨(h b hb).1, ih (h b hb).2⟩

theorem Fresh.clean {b k m : ℕ} {z : Prop} (hf : Fresh g R vol b k z vol')
    (hact : vol.jtxnActive) (hc : CleanFree g vol.disk (m + 1) vol.blockBitmap) :
    vol'.disk b = zeroBlock ∧ CleanFree g vol'.disk m vol'.blockBitmap := by
  have hg := hf.mid.geometry
  obtain ⟨hzero, hnext⟩ := hc b hf.next.1
  rw [hf.disk hact b (hg.inBody_of_inData hf.inData)]
  rw [← hf.next.2] at hnext
  exact ⟨hzero, hnext.congr (fun c hc hc' => hf.mid.reserved c (.inr ⟨hc, hc'⟩))
    fun c hc => hf.disk hact c (hg.inBody_of_inData hc)⟩

theorem Mid.newBlock (hm : Mid g R vol) (leaf : Bool)
    (hroom : leaf = false → vol.jtxnActive → vol.jtxn.length < 16) :
    vol.newBlock leaf = (vol, 0) ∨ (vol.newBlock leaf).2 ≠ 0 ∧
      Fresh g R vol (vol.newBlock leaf).2 (!leaf).toNat (leaf = false) (vol.newBlock leaf).1 := by
  cases leaf with
  | true =>
    by_cases h0 : vol.allocBlock.2 = 0
    · exact .inl (Prod.ext (hm.allocBlock.full h0) h0)
    · exact .inr ⟨h0, by simpa [Volume.newBlock] using hm.fresh_allocBlock h0⟩
  | false =>
    by_cases h0 : vol.allocTable.2 = 0
    · left
      rw [Volume.newBlock, if_neg Bool.false_ne_true]
      rw [hm.allocTable_eq] at h0 ⊢
      split_ifs at h0 ⊢ with hz
      · rfl
      · exact absurd h0 hz
    · exact .inr ⟨h0, by simpa [Volume.newBlock] using hm.fresh_allocTable (hroom rfl) h0⟩

/-- A new table that read as zeros before is read as the transaction sees it. -/
theorem Fresh.read {b k : ℕ} {z : Prop} {v : Volume} (hf : Fresh g R vol b k z vol') (hz : z)
    (hclean : vol.jtxnActive → CleanFree g vol.disk 1 vol.blockBitmap)
    (hact : v.jtxnActive = vol.jtxnActive) (hview : v.view b = vol'.view b)
    (hdisk : vol.jtxnActive → v.disk b = vol.disk b) : v.disk b = v.view b := by
  cases ha : vol.jtxnActive with
  | false => rw [view_of_idle (hact.trans ha)]
  | true =>
    rw [hdisk ha, hview, hf.zeroed hz]
    exact (hclean ha b hf.next.1).1

section Descend
variable {p q : List ℕ}

/-- From the table of site `p` on. The tables below are read as the transaction sees them, and a
new one reads as zeros. -/
theorem Mid.descend (hm : Mid g R vol)
    (hroom : vol.jtxnActive = true → vol.jtxn.length + (2 * q.length - 1) ≤ 16)
    (hdepth : p.length + q.length = r.2.depth) (ht : siteRef R vol.view (r, p) ≠ 0)
    (hidx : ∀ j ∈ q, j < 512)
    (hread : ∀ p', p <:+ p' → p'.length < r.2.depth → siteRef R vol.view (r, p') ≠ 0 →
      vol.disk (siteRef R vol.view (r, p')) = vol.view (siteRef R vol.view (r, p')))
    (hclean : vol.jtxnActive = true → 2 ≤ q.length →
      siteRef R vol.view (r, (q.reverse ++ p).tail) = 0 → CleanFree g vol.disk 1 vol.blockBitmap)
    {e : Volume × ℕ} (he : vol.descend (siteRef R vol.view (r, p)) q = e) :
    Grew g r (q.reverse ++ p) (2 * q.length - 1) R R vol e.1 ∧
      siteRef R e.1.view (r, q.reverse ++ p) = e.2 ∧
      (siteRef R vol.view (r, q.reverse ++ p) ≠ 0 →
        e = (vol, siteRef R vol.view (r, q.reverse ++ p))) := by
  induction q generalizing vol p with
  | nil =>
    subst he
    exact ⟨Grew.refl hm, rfl, fun _ => rfl⟩
  | cons idx q ih =>
    have hlt : p.length < r.2.depth := by simp at hdepth; omega
    have hpath : (idx :: q).reverse ++ p = q.reverse ++ idx :: p := by simp
    have hsuf : idx :: p <:+ q.reverse ++ idx :: p := suffix_append _ _
    have hdisk := hread p suffix_rfl hlt ht
    have hentry : siteRef R vol.view (r, idx :: p) =
        ptrAt (vol.view (siteRef R vol.view (r, p))) idx := by
      rw [siteRef_cons hlt, slot_of_ne ht]
    have hshort : q.length ≤ 1 := by
      have : r.2.depth ≤ 2 := by cases r.2 <;> simp [depth]
      simp at hdepth
      omega
    rw [hpath] at hclean ⊢
    rw [length_cons] at hroom hdepth ⊢
    rw [descend, hdisk, ← hentry] at he
    by_cases h0 : siteRef R vol.view (r, idx :: p) = 0
    · have hbelow : ∀ {p'}, idx :: p <:+ p' → siteRef R vol.view (r, p') = 0 :=
        ref_of_suffix_eq_zero h0
      rw [if_neg (by simpa using h0)] at he
      rcases hm.newBlock q.isEmpty (fun hl ha => by have := hroom ha; omega) with hnone | ⟨hb, hf⟩
      · rw [hnone, if_pos rfl] at he
        subst he
        exact ⟨(Grew.refl hm).weaken (by omega), hbelow hsuf, fun h => absurd (hbelow hsuf) h⟩
      rw [if_neg hb] at he
      obtain ⟨hgrew, hsite, hkeep⟩ := hf.linkEntry hm
        (fun ha => by
          have := hroom ha
          cases q <;> simp at this ⊢ <;> omega)
        hlt ht (hidx idx mem_cons_self) (hentry ▸ h0) hsuf
        (by cases q <;> simp at hdepth ⊢ <;> omega)
      generalize hv : (vol.newBlock q.isEmpty).1.metaWriteBlock _ _ = v at *
      have hb' : siteRef R v.view (r, idx :: p) = (vol.newBlock q.isEmpty).2 := by
        rw [hsite, update_self]
      have hin := hm.geometry.inBody_of_inData hf.inData
      have hread' : ∀ p', idx :: p <:+ p' → p'.length < r.2.depth → siteRef R v.view (r, p') ≠ 0 →
          v.disk (siteRef R v.view (r, p')) = v.view (siteRef R v.view (r, p')) := by
        intro p' hp' hlen hne
        by_cases hpp : p' = idx :: p
        · subst hpp
          obtain ⟨j, rfl⟩ : ∃ j, q = [j] := by
            rw [← length_eq_one_iff]
            simp at hlen
            omega
          rw [hb']
          exact hf.read rfl (fun ha => hclean ha (by simp) h0) hgrew.active hkeep
            fun ha => hgrew.disk ha _ hin
        · rw [hsite, update_of_ne (by simpa using hpp)] at hne
          exact absurd (hbelow hp') hne
      have hlength : (2 * q.length - 1) + ((!q.isEmpty).toNat + 1) = 2 * (q.length + 1) - 1 := by
        cases q <;> simp; omega
      obtain ⟨hgrew', hsite', -⟩ := ih hgrew.mid
        (fun ha => by
          have := hgrew.length
          have := hroom (hgrew.active ▸ ha)
          omega)
        (by simp; omega) (hb'.trans_ne hb) (fun j hj => hidx j (mem_cons_of_mem idx hj))
        hread' (fun _ h2 => absurd hshort (by omega)) (by rw [hb', he])
      exact ⟨(hgrew.trans hgrew').weaken (by omega), hsite', fun h => absurd (hbelow hsuf) h⟩
    · rw [if_pos h0] at he
      obtain ⟨hgrew, hsite, hkept⟩ := ih hm (fun ha => by have := hroom ha; omega) (by simp; omega) h0
        (fun j hj => hidx j (mem_cons_of_mem idx hj))
        (fun p' hp' => hread p' ((suffix_cons idx p).trans hp'))
        (fun _ h2 => absurd hshort (by omega)) he
      exact ⟨hgrew.weaken (by omega), hsite, hkept⟩

end Descend

/-- Mapping logical block `fb` takes a pointer block that does not exist yet. -/
def needsTable (d : ℕ → Block) (i : Inode) (fb : ℕ) : Prop :=
  12 ≤ fb ∧ fb < maxDirBlocks ∧ if fb < 524 then i.indirect.toNat = 0
    else i.doubleIndirect.toNat = 0 ∨ ptrAt (d i.doubleIndirect.toNat) ((fb - 524) / 512) = 0

structure Resolved (g : Superblock) (R : ℕ × Root → ℕ) (n : ℕ) (vol : Volume) (i : Inode) (fb : ℕ)
    (res : Volume × Inode × ℕ × Bool) : Prop where
  grew : Grew g (n, rootOf fb) (pathOf fb) 4 (withInode R n i) (withInode R n res.2.1) vol res.1
  block : blockAt res.1.view res.2.1 fb = res.2.2.1
  kept : blockAt vol.view i fb ≠ 0 → res = (vol, i, blockAt vol.view i fb, false)
  info : res.2.1 = { i with
    direct := res.2.1.direct
    indirect := res.2.1.indirect
    doubleIndirect := res.2.1.doubleIndirect }
  clean : res.2.2.2 = false → res.2.1 = i

section Resolve
variable {n : ℕ} {i : Inode} {fb : ℕ} (hm : Mid g (withInode R n i) vol)
  (hroom : vol.jtxnActive = true → vol.jtxn.length + 4 ≤ 16)
include hm hroom

theorem Mid.resolveAt {r : Root} {q : List ℕ} (hq : q.length = r.depth)
    (hdirect : ∀ k, r = .direct k → k < 12) (hidx : ∀ j ∈ q, j < 512)
    (hread : ∀ p, p.length < r.depth → siteRef (withInode R n i) vol.view ((n, r), p) ≠ 0 →
      vol.disk (siteRef (withInode R n i) vol.view ((n, r), p)) =
        vol.view (siteRef (withInode R n i) vol.view ((n, r), p)))
    (hclean : vol.jtxnActive → 0 < r.depth →
      siteRef (withInode R n i) vol.view ((n, r), q.reverse.tail) = 0 →
        CleanFree g vol.disk 2 vol.blockBitmap)
    {res : Volume × Inode × ℕ × Bool} (he : vol.resolveAt i r q = res) :
    Grew g (n, r) q.reverse 4 (withInode R n i) (withInode R n res.2.1) vol res.1 ∧
      siteRef (withInode R n res.2.1) res.1.view ((n, r), q.reverse) = res.2.2.1 ∧
      (siteRef (withInode R n i) vol.view ((n, r), q.reverse) ≠ 0 →
        res = (vol, i, siteRef (withInode R n i) vol.view ((n, r), q.reverse), false)) ∧
      (res.2.2.2 = false ∧ res.2.1 = i ∨ res.2.2.2 ∧ ∃ b, res.2.1 = i.setRoot r b) := by
  have hnil : ∀ i' d, siteRef (withInode R n i') d ((n, r), []) = i'.root r := fun i' d => by
    rw [siteRef_nil, withInode_self]
  have hdepth : ([] : List ℕ).length + q.length = r.depth := (Nat.zero_add _).trans hq
  have hlen : r.depth ≤ 2 := by cases r <;> simp [depth]
  have hpath := append_nil q.reverse
  unfold Volume.resolveAt at he
  by_cases h0 : i.root r = 0
  · have hzero : ∀ p, siteRef (withInode R n i) vol.view ((n, r), p) = 0 := fun p =>
      ref_of_suffix_eq_zero ((hnil i vol.view).trans h0) nil_suffix
    rw [if_neg (by simpa using h0)] at he
    rcases hm.newBlock q.isEmpty (fun _ ha => by have := hroom ha; omega) with hnone | ⟨hb, hf⟩
    · rw [hnone, if_pos rfl] at he
      subst he
      exact ⟨(Grew.refl hm).weaken (by omega), hzero _, fun h => absurd (hzero _) h,
        .inl ⟨rfl, rfl⟩⟩
    rw [if_neg hb] at he
    have hroot := i.root_setRoot_self (hm.geometry.lt_of_inData hf.inData) hdirect
    obtain ⟨hgrew, hsite⟩ := hf.linkRoot hm h0 hroot (fun r' hne => i.root_setRoot_ne _ hne)
      (by cases q <;> simp at hq ⊢ <;> omega) q.reverse
    generalize (vol.newBlock q.isEmpty).1 = v at *
    generalize (vol.newBlock q.isEmpty).2 = b at *
    generalize hi : i.setRoot r b = i' at *
    have hb' : siteRef (withInode R n i') v.view ((n, r), []) = b := (hnil i' _).trans hroot
    have hread' : ∀ p, [] <:+ p → p.length < r.depth →
        siteRef (withInode R n i') v.view ((n, r), p) ≠ 0 →
        v.disk (siteRef (withInode R n i') v.view ((n, r), p)) =
          v.view (siteRef (withInode R n i') v.view ((n, r), p)) := by
      intro p _ hp hne
      cases p with
      | nil =>
        rw [hb']
        exact hf.read (by simp at hp ⊢; rintro rfl; simp at hq; omega)
          (fun ha => (hclean ha hp (hzero _)).of_succ) hgrew.active rfl
          fun ha => hgrew.disk ha _ (hm.geometry.inBody_of_inData hf.inData)
      | cons j p =>
        rw [hsite, update_of_ne (by simp), hzero] at hne
        exact absurd rfl hne
    obtain ⟨hgrew', hsite', -⟩ := hgrew.mid.descend (r := (n, r))
      (fun ha => by
        have := hgrew.length
        have := hroom (hgrew.active ▸ ha)
        cases q <;> simp at this hq ⊢ <;> omega)
      hdepth (hb'.trans_ne hb) hidx hread'
      (fun ha h2 _ => by
        rw [hgrew.active] at ha
        exact (hf.clean ha (hclean ha (by omega) (hzero _))).2)
      rfl
    rw [hpath, hb'] at hgrew' hsite'
    subst he
    exact ⟨(hgrew.trans hgrew').weaken (by cases q <;> simp at hq ⊢; omega), hsite',
      fun h => absurd (hzero _) h, .inr ⟨rfl, b, hi.symm⟩⟩
  · rw [if_pos h0] at he
    have ht := (hnil i vol.view).trans_ne h0
    obtain ⟨hgrew, hsite, hkept⟩ := hm.descend (r := (n, r)) (fun ha => by have := hroom ha; omega) hdepth ht hidx
      (fun p _ => hread p) (fun ha h2 h => (hclean ha (by omega) (by rwa [hpath] at h)).of_succ) rfl
    rw [hpath, hnil] at hgrew hsite hkept
    subst he
    exact ⟨hgrew.weaken (by omega), hsite, fun h => by rw [hkept h], .inl ⟨rfl, rfl⟩⟩

/-- An allocating resolution adds fresh blocks along the path of `fb` and changes nothing else.
In a transaction its tables must not be staged, and new tables must read as zeros. -/
theorem Mid.resolveBlock
    (hread : ∀ p, p.length < (rootOf fb).depth →
      siteRef (withInode R n i) vol.view ((n, rootOf fb), p) ≠ 0 →
        vol.disk (siteRef (withInode R n i) vol.view ((n, rootOf fb), p)) =
          vol.view (siteRef (withInode R n i) vol.view ((n, rootOf fb), p)))
    (hclean : vol.jtxnActive → needsTable vol.disk i fb →
      CleanFree g vol.disk 2 vol.blockBitmap) :
    Resolved g R n vol i fb (vol.resolveBlock i fb true) := by
  by_cases hmax : fb < maxDirBlocks
  · have hat : ∀ d i', blockAt d i' fb =
        siteRef (withInode R n i') d ((n, rootOf fb), pathOf fb) := fun d i' =>
      (siteRef_eq_blockAt (withInode_self R n i') d hmax).symm
    have hneeds : 0 < (rootOf fb).depth →
        siteRef (withInode R n i) vol.view ((n, rootOf fb), (pathOf fb).tail) = 0 →
          needsTable vol.disk i fb := by
      intro hd h
      have hroot := hread [] hd
      rw [siteRef_nil, withInode_self] at hroot
      unfold needsTable
      by_cases h1 : fb < 12
      · simp [rootOf, h1, depth] at hd
      refine ⟨by omega, hmax, ?_⟩
      by_cases h2 : fb < 524
      · simpa [rootOf, pathOf, h1, h2, siteRef_nil, root] using h
      simp only [rootOf, pathOf, if_neg h1, if_neg h2, tail_cons] at h hroot
      rw [if_neg h2]
      by_cases h0 : i.root .doubleIndirect = 0
      · exact .inl h0
      rw [siteRef_cons (by simp [depth]), siteRef_nil, withInode_self, slot_of_ne h0] at h
      rw [← hroot h0] at h
      exact .inr h
    rw [resolveBlock_true vol i hmax]
    obtain ⟨hgrew, hsite, hkept, hinode⟩ := hm.resolveAt hroom
      ((length_reverse ..).trans (length_pathOf fb)) (fun k => lt_of_rootOf)
      (fun j hj => lt_of_mem_pathOf hmax (mem_reverse.mp hj)) hread
      (fun ha hd h => hclean ha (hneeds hd (by rwa [reverse_reverse] at h))) rfl
    rw [reverse_reverse] at hgrew hsite hkept
    rw [← hat] at hkept hsite
    refine ⟨hgrew, hsite, hkept, ?_, fun h => ?_⟩
    · rcases hinode with ⟨-, h⟩ | ⟨-, b, h⟩ <;> rw [h]
      cases rootOf fb <;> rfl
    · rcases hinode with ⟨-, h'⟩ | ⟨h', -⟩
      · exact h'
      · exact absurd (h.symm.trans h') (by decide)
  have hout : ∀ d i', blockAt d i' fb = 0 := fun d i' => if_neg hmax
  rw [vol.resolveBlock_of_ge i hmax]
  exact ⟨(Grew.refl hm).weaken (by omega), hout _ _, fun h => absurd (hout _ _) h, rfl,
    fun _ => rfl⟩

end Resolve

end Grew

end Exploidus.Exfs
