import Exploidus.Vfs.Resolution
import Exploidus.Exfs.Content

/-! Lookups on consistent volumes: resolving a path changes nothing but the access records of the
symlinks it reads, and the node it finds is up to date. -/
namespace Exploidus.Vfs
open Exfs Components Refs Function State Volume

/-- A consistent volume on which only access records have been added: every inode is as before but
for its number of records, and so is every block outside the inode table and the record region. -/
structure OnlyRead (g : Superblock) (vol vol' : Volume) : Prop where
  consistent : Consistent g vol'
  sb : vol'.sb = vol.sb
  blockBitmap : vol'.blockBitmap = vol.blockBitmap
  inode : ∀ n, ∃ c, inodeTable g vol'.disk n = { inodeTable g vol.disk n with provCount := c }
  blocks : ∀ b, b < g.inodeTableBlock ∨ (g.dataStartBlock ≤ b ∧ b < g.provenanceBlock) →
    vol'.disk b = vol.disk b

section
variable {g : Superblock} {vol vol' vol'' : Volume} {n : ℕ} {node : Node}

theorem OnlyRead.refl (hc : Consistent g vol) : OnlyRead g vol vol :=
  ⟨hc, rfl, rfl, fun n => ⟨(inodeTable g vol.disk n).provCount, rfl⟩, fun _ _ => rfl⟩

theorem OnlyRead.trans (h : OnlyRead g vol vol') (h' : OnlyRead g vol' vol'') :
    OnlyRead g vol vol'' := by
  refine ⟨h'.consistent, h'.sb.trans h.sb, h'.blockBitmap.trans h.blockBitmap, fun n => ?_,
    fun b hb => (h'.blocks b hb).trans (h.blocks b hb)⟩
  obtain ⟨c, hi⟩ := h.inode n
  obtain ⟨c', hi'⟩ := h'.inode n
  exact ⟨c', by rw [hi', hi]⟩

theorem OnlyRead.data (h : OnlyRead g vol vol') {b : ℕ} (hb : InData g b) :
    vol'.disk b = vol.disk b := by
  have hprov := h.consistent.rest.mid.geometry.provenanceBlock
  exact h.blocks b (.inr ⟨hb.1, by have := hb.2; omega⟩)

theorem root_provCount (i : Inode) (c : UInt32) (r : Root) :
    ({ i with provCount := c } : Inode).root r = i.root r := by
  cases r <;> rfl

section
variable (h : OnlyRead g vol vol')
include h

theorem OnlyRead.root (n : ℕ) (r : Root) :
    (inodeTable g vol'.disk n).root r = (inodeTable g vol.disk n).root r := by
  obtain ⟨c, hi⟩ := h.inode n
  rw [hi, root_provCount]

theorem OnlyRead.agrees {i : Inode}
    (hi : Agrees i (inodeTable g vol.disk n)) : Agrees i (inodeTable g vol'.disk n) := by
  obtain ⟨c, hc⟩ := h.inode n
  refine ⟨fun r => (hi.root r).trans (h.root n r).symm, ?_, ?_⟩
  · rw [hc]
    exact hi.mode
  · rw [hc]
    exact hi.size

theorem OnlyRead.current (hcur : Current g vol.disk node) :
    Current g vol'.disk node := ⟨hcur.bound, h.agrees hcur.agrees⟩

theorem OnlyRead.blockAt_eq (hr : Rest g vol) (n f : ℕ) :
    blockAt vol'.disk (inodeTable g vol'.disk n) f =
      blockAt vol.disk (inodeTable g vol.disk n) f := by
  rw [blockAt_congr_root (h.root n)]
  exact @blockAt_congr_sites n _ _ _ (diskRoots g vol.disk) (fun _ => rfl)
    (fun _ _ h0 => h.data (hr.mid.safe.sound.ok h0).1) f

theorem OnlyRead.entry_eq (hr : Rest g vol) (n f k : ℕ) :
    entry g vol'.disk n f k = entry g vol.disk n f k :=
  slotAt_congr (h.blockAt_eq hr n f)
    (fun h0 => h.data (blockAt_inData hr.mid.safe.sound (fun _ => rfl) h0).1) k

theorem OnlyRead.isDir (hr : Rest g vol) (hn : IsDir g vol.disk n) : IsDir g vol'.disk n := by
  induction hn with
  | root => exact .root
  | @child n f k _ hl ht ih =>
    have hsame := h.entry_eq hr n f k
    rw [← hsame] at hl ht ⊢
    exact .child ih hl ht

theorem OnlyRead.content (hr : Rest g vol) {ref : List UInt8}
    (hc : Content vol.disk (inodeTable g vol.disk n) ref) :
    Content vol'.disk (inodeTable g vol'.disk n) ref := by
  refine ⟨?_, fun x hx => ?_⟩
  · obtain ⟨c, hi⟩ := h.inode n
    rw [hi]
    exact hc.size
  · rw [← hc.bytes x hx]
    exact byteAt_congr (h.blockAt_eq hr n _)
      fun h0 => h.data (blockAt_inData hr.mid.safe.sound (fun _ => rfl) h0).1

end

theorem appendProv_frame (hr : Rest g vol) (hn : n < 4096) (i : Inode) (op : UInt8) (pid : UInt32)
    (capUpper fileOffset length : UInt64) {vol' : Volume}
    (h : vol' = (vol.appendProv n i op pid capUpper fileOffset length).1) :
    vol'.sb = vol.sb ∧ vol'.blockBitmap = vol.blockBitmap ∧
      ∀ b, b < g.inodeTableBlock ∨ (g.dataStartBlock ≤ b ∧ b < g.provenanceBlock) →
        vol'.disk b = vol.disk b := by
  obtain ⟨m, hsb⟩ := hr.mid.sb
  have hdata := hr.mid.geometry.dataStartBlock
  have hprov := hr.mid.geometry.provenanceBlock
  have hjournal := hr.mid.geometry.data_lt_journal
  unfold appendProv at h
  dsimp only at h
  split_ifs at h
  · subst h
    exact ⟨rfl, rfl, fun _ _ => rfl⟩
  have hidle : ∀ b buf, (vol.writeBlock b buf).jtxnActive = false := fun _ _ => hr.idle
  simp only [writeInode, metaWriteBlock, hidle] at h
  subst h
  refine ⟨rfl, rfl, fun b hb => ?_⟩
  simp only [Bool.false_eq_true, if_false, writeBlock_disk, writeBlock_sb, hsb]
  rw [update_of_ne (by omega), update_of_ne (by omega)]

theorem appendProv_onlyRead (hc : Consistent g vol) (hn : n < 4096) {i : Inode}
    (hi : i = inodeTable g vol.disk n) (op : UInt8) (pid : UInt32)
    (capUpper fileOffset length : UInt64) {res : Volume × Inode}
    (h : res = vol.appendProv n i op pid capUpper fileOffset length) :
    OnlyRead g vol res.1 ∧ res.2 = inodeTable g res.1.disk n := by
  have hroot : ∀ r, i.root r = (inodeTable g vol.disk n).root r := fun r => by rw [hi]
  obtain ⟨hstep, heq | ⟨h2, htable⟩⟩ := hc.rest.appendProv hn hroot op pid capUpper fileOffset
    length h
  · rw [heq]
    exact ⟨.refl hc, hi⟩
  have hagree : Agrees i (inodeTable g res.1.disk n) := by
    rw [htable, h2]
    exact ⟨fun r => (root_provCount i _ r).symm, rfl, rfl⟩
  have hsame : Agrees i (inodeTable g vol.disk n) := hi ▸ Agrees.refl i
  obtain ⟨hsb, hbitmap, hblocks⟩ := appendProv_frame hc.rest hn i op pid capUpper fileOffset length
    (congrArg Prod.fst h)
  refine ⟨⟨(hstep.kept_agrees hc hagree hsame).consistent, hsb, hbitmap, fun m => ?_, hblocks⟩,
    htable.symm⟩
  by_cases hm : m = n
  · subst hm
    exact ⟨i.provCount + 1, by rw [htable, h2, hi]⟩
  · exact ⟨(inodeTable g vol.disk m).provCount, by rw [hstep.table m hm]⟩

theorem opRead_onlyRead (hc : Consistent g vol) (hn : node.inodeNum < 4096)
    (hi : node.inode = inodeTable g vol.disk node.inodeNum) (off len : ℕ) :
    OnlyRead g vol (vol.opRead node off len).1 ∧ (vol.opRead node off len).2.1.inode =
      inodeTable g (vol.opRead node off len).1.disk node.inodeNum := by
  unfold opRead
  dsimp only
  generalize (if node.inode.size.toNat < (off + len) % 2 ^ 64 then _ else len) = len'
  split_ifs
  · exact ⟨.refl hc, hi⟩
  · exact ⟨.refl hc, hi⟩
  · exact appendProv_onlyRead hc hn hi _ _ _ _ _ rfl

theorem opOpen_onlyRead (hc : Consistent g vol) (hn : node.inodeNum < 4096) :
    OnlyRead g vol (vol.opOpen node).1 ∧ (vol.opOpen node).2.1.inode =
      inodeTable g (vol.opOpen node).1.disk node.inodeNum :=
  appendProv_onlyRead hc hn (hc.rest.readInode hn) _ _ _ _ _ rfl

structure Known (g : Superblock) (vol : Volume) (node : Node) : Prop where
  current : Current g vol.disk node
  dir : node.type = .directory → IsDir g vol.disk node.inodeNum

structure Exact (g : Superblock) (vol : Volume) (node : Node) : Prop extends Known g vol node where
  inode : node.inode = inodeTable g vol.disk node.inodeNum
  mode : node.mode = node.inode.mode
  ownerUid : node.ownerUid = node.inode.ownerUid
  groupGid : node.groupGid = node.inode.groupGid

theorem OnlyRead.known (h : OnlyRead g vol vol') (hr : Rest g vol) (hk : Known g vol node) :
    Known g vol' node := ⟨h.current hk.current, fun ht => h.isDir hr (hk.dir ht)⟩

theorem opLookup_exact (hc : Consistent g vol) {dir child : Node} (hk : Known g vol dir)
    (hdir : dir.type = .directory) {name : List UInt8} (hlen : name.length ≤ 255)
    (h : vol.opLookup dir name = some child) : Exact g vol child := by
  unfold opLookup at h
  cases hf : vol.findEntry dir.inode name with
  | none =>
    rw [hf] at h
    cases h
  | some r =>
    obtain ⟨blk, k, e⟩ := r
    rw [hf] at h
    cases h
    obtain ⟨f, hfound, rfl, -⟩ := hk.current.findEntry hlen hf
    have hbound := hc.ns.bound _ f k (hk.dir hdir) hfound.live
    have hinode := hc.rest.readInode hbound
    refine ⟨⟨⟨hbound, hinode ▸ Agrees.refl _⟩, fun ht => ?_⟩, hinode, rfl, rfl, rfl⟩
    refine .child (hk.dir hdir) hfound.live ?_
    unfold typeOf at ht
    split_ifs at ht with h1
    exact h1

end

/-! Lookups that find names in directories only. -/

/-- The name at which a descent has to leave the directories is not found there. -/
def Found.InDirs (vols : ℕ → Volume) : Found → Prop
  | .stray p name => (vols p.vol).opLookup p.node name = none
  | .place _ => True
  | .missing => True
  | .link _ _ => True

theorem Found.InDirs.stray {vols : ℕ → Volume} {found : Found} (h : found.InDirs vols) :
    ∀ p name, found = .stray p name → (vols p.vol).opLookup p.node name = none := by
  rintro p name rfl
  exact h

instance (vols : ℕ → Volume) : ∀ found : Found, Decidable (found.InDirs vols)
  | .stray p name => inferInstanceAs (Decidable ((vols p.vol).opLookup p.node name = none))
  | .place _ | .missing | .link _ _ => isTrue trivial

/-- `next` holds of the path of the next round, if there is one. -/
def Walked.After (next : List UInt8 → Prop) : Walked → Prop
  | .found _ => True
  | .hop path => next path

instance (next : List UInt8 → Prop) [DecidablePred next] (w : Walked) : Decidable (w.After next) := by
  cases w <;> unfold Walked.After <;> infer_instance

/-- No round of the lookup of a path finds a name in something that is not a directory. The
driver's lookup takes the bytes of any file for entries. -/
def State.InDirs (followLast : Bool) : ℕ → State → List UInt8 → Prop
  | 0, _, _ => True
  | rounds + 1, s, path => path.head? = some slash → ∀ m ∈ bestMount s.mounts path,
      (descend s.volumes (s.place m.root)
        (components slash (path.drop m.mountpoint.length))).InDirs s.volumes ∧
      (walk m.root followLast path.length s m.root
        ((path.drop m.mountpoint.length).dropWhile (· = slash))).2.After
          (InDirs followLast rounds (walk m.root followLast path.length s m.root
            ((path.drop m.mountpoint.length).dropWhile (· = slash))).1)

instance State.InDirs.decidable (followLast : Bool) :
    ∀ rounds s path, Decidable (State.InDirs followLast rounds s path)
  | 0, _, _ => isTrue trivial
  | rounds + 1, s, path =>
    have := State.InDirs.decidable followLast rounds
    inferInstanceAs (Decidable (path.head? = some slash → ∀ m ∈ bestMount s.mounts path, _ ∧ _))

/-- What a walk from `node` leaves: its volume has been read only, the other volumes are as before;
a walk that finds a node has changed no volume, and the node is fresh unless it is the first
one. -/
theorem Walks.volumes {g : Superblock} {root node : ℕ} {followLast : Bool} {s : State}
    {cur : List UInt8} {res : State × Walked} (h : Walks root followLast s node cur res)
    (hhead : cur.head? ≠ some slash)
    (hdirs : (descend s.volumes (s.place node) (components slash cur)).InDirs s.volumes)
    (hc : Consistent g (s.volOf node)) (hk : Known g (s.volOf node) (s.nodes node).node) :
    OnlyRead g (s.volOf node) (res.1.volumes (s.nodes node).vol) ∧
      (∀ v ≠ (s.nodes node).vol, res.1.volumes v = s.volumes v) ∧
      ∀ n, res.2 = .found (some n) → res.1.volumes = s.volumes ∧ (n = node ∨
        (s.fresh ≤ n ∧ n < res.1.fresh ∧ (res.1.nodes n).vol = (s.nodes node).vol ∧
          (res.1.nodes n).parent.isSome ∧ Exact g (s.volOf node) (res.1.nodes n).node)) := by
  induction h with
  | done s node =>
    refine ⟨.refl hc, fun _ _ => rfl, fun n hn => ⟨rfl, .inl ?_⟩⟩
    cases hn
    rfl
  | long => exact ⟨.refl hc, fun _ _ => rfl, fun n hn => by cases hn⟩
  | missing =>
    rw [leave_volumes]
    exact ⟨.refl hc, fun _ _ => rfl, fun n hn => by cases hn⟩
  | @link s node cur child hne hlen hlook htype hfollow =>
    rw [components_of_head hne hhead] at hdirs
    have hexact := opLookup_exact hc hk (type_of_descend hdirs.stray hlook) hlen hlook
    rw [(readLink_shortTarget s root node child).1, shortTarget]
    dsimp only
    refine ⟨?_, fun v hv => update_of_ne hv _ _, fun n hn => ?_⟩
    · rw [update_self]
      exact (opRead_onlyRead hc hexact.current.bound hexact.inode 0 255).1
    unfold turnAt at hn
    split_ifs at hn
    all_goals cases hn
  | @next s node cur child res hne hlen hlook hstay hrest ih =>
    rw [components_of_head hne hhead] at hdirs
    have hexact := opLookup_exact hc hk (type_of_descend hdirs.stray hlook) hlen hlook
    have hself : (s.enter root node child).nodes s.fresh =
        ⟨(s.nodes node).vol, child, some node⟩ := by simp
    have hvol : (s.enter root node child).volOf s.fresh = s.volOf node := by
      rw [volOf, hself, enter_volumes, volOf]
    have hdown : (descend (s.enter root node child).volumes ((s.enter root node child).place s.fresh)
        (components slash ((cur.dropWhile (· ≠ slash)).dropWhile (· = slash)))).InDirs
          (s.enter root node child).volumes := by
      rw [place, hself, enter_volumes, components_dropWhile_sep]
      rw [descend_cons hdirs.stray hlook] at hdirs
      split_ifs at hdirs with htype
      · -- an unfollowed symlink is the last component
        have hlast : cur.dropWhile (· ≠ slash) = [] := by
          by_contra hmore
          exact hstay ⟨htype, .inl hmore⟩
        rw [hlast, components_nil, descend]
        trivial
      · exact hdirs
    have hext := hrest.extends
    obtain ⟨hread, hothers, hfound⟩ := ih (head_dropWhile_sep _) hdown (by rw [hvol]; exact hc)
      (by rw [hvol, hself]; exact hexact.toKnown)
    rw [hvol, hself] at hread hfound
    rw [hself, enter_volumes] at hothers
    refine ⟨hread, hothers, fun n hn => ?_⟩
    obtain ⟨hvols, hn | hn⟩ := hfound n hn
    · refine ⟨hvols.trans (by rw [enter_volumes]), .inr ?_⟩
      have hlt : s.fresh < (s.enter root node child).fresh := by simp
      rw [hn, hext.nodes _ hlt, hself]
      exact ⟨le_rfl, hlt.trans_le hext.fresh, rfl, rfl, hexact⟩
    · refine ⟨hvols.trans (by rw [enter_volumes]), .inr ⟨?_, hn.2⟩⟩
      have := hn.1
      rw [enter_fresh] at this
      omega

/-- Every mounted volume is consistent, and the nodes of the mount roots are up to date; `g` is
the geometry of the volumes. -/
structure Mounted (g : ℕ → Superblock) (s : State) : Prop where
  consistent : ∀ m ∈ s.mounts, Consistent (g (s.nodes m.root).vol) (s.volOf m.root)
  known : ∀ m ∈ s.mounts, Known (g (s.nodes m.root).vol) (s.volOf m.root) (s.nodes m.root).node
  live : ∀ m ∈ s.mounts, m.root < s.fresh

structure ReadsOnly (g : ℕ → Superblock) (s s' : State) : Prop extends Extends s s' where
  mounted : ∀ m ∈ s.mounts,
    OnlyRead (g (s.nodes m.root).vol) (s.volOf m.root) (s'.volumes (s.nodes m.root).vol)
  others : ∀ v, (∀ m ∈ s.mounts, (s.nodes m.root).vol ≠ v) → s'.volumes v = s.volumes v

section
variable {g : ℕ → Superblock} {s s' s'' : State}

theorem Mounted.refl (h : Mounted g s) : ReadsOnly g s s :=
  ⟨.refl s, fun m hm => .refl (h.consistent m hm), fun _ _ => rfl⟩

theorem Extends.volOf (h : Extends s s') {n : ℕ} (hn : n < s.fresh) :
    s'.volOf n = s'.volumes (s.nodes n).vol := by
  rw [State.volOf, h.nodes n hn]

theorem Mounted.reads (h : Mounted g s) (hr : ReadsOnly g s s') : Mounted g s' := by
  have hext := hr.toExtends
  refine ⟨fun m hm => ?_, fun m hm => ?_, fun m hm => ?_⟩ <;> rw [hext.mounts] at hm
  · rw [hext.volOf (h.live m hm), hext.nodes _ (h.live m hm)]
    exact (hr.mounted m hm).consistent
  · rw [hext.volOf (h.live m hm), hext.nodes _ (h.live m hm)]
    exact (hr.mounted m hm).known (h.consistent m hm).rest (h.known m hm)
  · exact (h.live m hm).trans_le hext.fresh

theorem ReadsOnly.trans (hm : Mounted g s) (h : ReadsOnly g s s') (h' : ReadsOnly g s' s'') :
    ReadsOnly g s s'' := by
  have hext := h.toExtends
  refine ⟨hext.trans h'.toExtends, fun m hmem => ?_, fun v hv => ?_⟩
  · have hnext := h'.mounted m (hext.mounts ▸ hmem)
    rw [hext.volOf (hm.live m hmem), hext.nodes _ (hm.live m hmem)] at hnext
    exact (h.mounted m hmem).trans hnext
  refine (h'.others v fun m hmem => ?_).trans (h.others v hv)
  rw [hext.mounts] at hmem
  rw [hext.nodes _ (hm.live m hmem)]
  exact hv m hmem

def Reaches (g : ℕ → Superblock) (s s' : State) (n : ℕ) : Prop :=
  (∃ m ∈ s.mounts, n = m.root) ∨
    (s.fresh ≤ n ∧ n < s'.fresh ∧ (∃ m ∈ s.mounts, (s'.nodes n).vol = (s.nodes m.root).vol) ∧
      (s'.nodes n).parent.isSome ∧ Exact (g (s'.nodes n).vol) (s'.volOf n) (s'.nodes n).node)

theorem State.lookupImpl_reads {followLast : Bool} {rounds : ℕ} {path : List UInt8}
    (hm : Mounted g s) (hdirs : State.InDirs followLast rounds s path) :
    ReadsOnly g s (lookupImpl followLast rounds s path).1 ∧
      ∀ n, (lookupImpl followLast rounds s path).2 = some n →
        Reaches g s (lookupImpl followLast rounds s path).1 n := by
  induction rounds generalizing s path with
  | zero => exact ⟨hm.refl, fun n hn => by cases hn⟩
  | succ rounds ih =>
    unfold lookupImpl
    by_cases habs : path.head? ≠ some slash
    · rw [if_pos habs]
      exact ⟨hm.refl, fun n hn => by cases hn⟩
    rw [if_neg habs]
    cases hb : bestMount s.mounts path with
    | none => exact ⟨hm.refl, fun n hn => by cases hn⟩
    | some m =>
      obtain ⟨hhere, hnext⟩ := hdirs (not_not.mp habs) m hb
      have hmem := bestMount_mem hb
      dsimp only
      have hlen : ((path.drop m.mountpoint.length).dropWhile (· = slash)).length ≤ path.length :=
        (List.dropWhile_suffix _).length_le.trans (by simp)
      have hwalk : Walks m.root followLast s m.root _ (walk m.root followLast path.length s _ _) :=
        walk_walks hlen (head_dropWhile_sep _)
      generalize walk m.root followLast path.length s m.root _ = r at hwalk hnext ⊢
      have hext := hwalk.extends
      obtain ⟨hread, hothers, hfound⟩ := hwalk.volumes (head_dropWhile_sep _)
        (by rw [components_dropWhile_sep]; exact hhere) (hm.consistent m hmem) (hm.known m hmem)
      have hreads : ReadsOnly g s r.1 := by
        refine ⟨hext, fun k hk => ?_, fun v hv => hothers v (hv m hmem).symm⟩
        by_cases heq : (s.nodes k.root).vol = (s.nodes m.root).vol
        · rwa [volOf, heq]
        · rw [hothers _ heq]
          exact .refl (hm.consistent k hk)
      obtain ⟨s1, w⟩ := r
      cases w with
      | found k =>
        refine ⟨hreads, fun n hn => ?_⟩
        dsimp only at hn
        subst hn
        obtain ⟨hvols, rfl | ⟨hlo, hhi, hvol, hparent, hexact⟩⟩ := hfound n rfl
        · exact .inl ⟨m, hmem, rfl⟩
        refine .inr ⟨hlo, hhi, ⟨m, hmem, hvol⟩, hparent, ?_⟩
        dsimp only at hvols hvol
        rwa [volOf, hvols, hvol]
      | hop next =>
        obtain ⟨hrest, hhand⟩ := ih (hm.reads hreads) hnext
        refine ⟨hreads.trans hm hrest, fun n hn => ?_⟩
        rcases hhand n hn with ⟨k, hk, rfl⟩ | ⟨hlo, hhi, ⟨k, hk, hvol⟩, hparent, hexact⟩
        · exact .inl ⟨k, hext.mounts ▸ hk, rfl⟩
        have hk' : k ∈ s.mounts := hext.mounts ▸ hk
        rw [hext.nodes _ (hm.live k hk')] at hvol
        exact .inr ⟨hext.fresh.trans hlo, hhi, ⟨k, hk', hvol⟩, hparent, hexact⟩

end

end Exploidus.Vfs
