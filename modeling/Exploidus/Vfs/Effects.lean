import Exploidus.Vfs.Volumes
import Exploidus.Vfs.Calls

/-! What renames between volumes and writes through the open calls do to the volumes. -/
namespace Exploidus.Vfs
open Exfs Function State

namespace State

/-- `vfs_rename` comes to two directories on one volume. -/
def SameVolume (s : State) (oldPath newPath : List UInt8) : Prop :=
  ∃ p q o n, splitPath oldPath = some p ∧ splitPath newPath = some q ∧
    (s.lookup p.1).2 = some o ∧ ((s.lookup p.1).1.lookup q.1).2 = some n ∧
    (((s.lookup p.1).1.lookup q.1).1.nodes o).vol = (((s.lookup p.1).1.lookup q.1).1.nodes n).vol

instance (s : State) (oldPath newPath : List UInt8) : Decidable (s.SameVolume oldPath newPath) :=
  decidable_of_iff (∃ p ∈ splitPath oldPath, ∃ q ∈ splitPath newPath, ∃ o ∈ (s.lookup p.1).2,
      ∃ n ∈ ((s.lookup p.1).1.lookup q.1).2, (((s.lookup p.1).1.lookup q.1).1.nodes o).vol =
        (((s.lookup p.1).1.lookup q.1).1.nodes n).vol) (by unfold SameVolume; aesop)

/-- `vfs_rename` finds names in directories only. -/
def RenameInDirs (s : State) (oldPath newPath : List UInt8) : Prop :=
  ∀ p ∈ splitPath oldPath, ∀ q ∈ splitPath newPath,
    State.InDirs true 9 s p.1 ∧ State.InDirs true 9 (s.lookup p.1).1 q.1
  deriving Decidable

theorem vfsRename_fails {s : State} {oldPath newPath : List UInt8}
    (hdiff : ¬ s.SameVolume oldPath newPath) :
    (s.vfsRename oldPath newPath).2 = -1 ∧ ((s.vfsRename oldPath newPath).1.volumes = s.volumes ∨
        ∃ p ∈ splitPath oldPath, ∃ q ∈ splitPath newPath,
          (s.vfsRename oldPath newPath).1.volumes = (s.lookup p.1).1.volumes ∨
          (s.vfsRename oldPath newPath).1.volumes = ((s.lookup p.1).1.lookup q.1).1.volumes) := by
  unfold vfsRename
  cases hp : splitPath oldPath with
  | none => exact ⟨rfl, .inl rfl⟩
  | some p =>
    cases hq : splitPath newPath with
    | none => exact ⟨rfl, .inl rfl⟩
    | some q =>
      dsimp only
      by_cases hdots : isDots p.2 ∨ isDots q.2
      · rw [if_pos hdots]
        exact ⟨rfl, .inl rfl⟩
      rw [if_neg hdots]
      cases ho : (s.lookup p.1).2 with
      | none => exact ⟨rfl, .inr ⟨p, rfl, q, rfl, .inl rfl⟩⟩
      | some o =>
        dsimp only
        split_ifs with hold
        · exact ⟨rfl, .inr ⟨p, rfl, q, rfl, .inl rfl⟩⟩
        cases hn : ((s.lookup p.1).1.lookup q.1).2 with
        | none => exact ⟨rfl, .inr ⟨p, rfl, q, rfl, .inr (freeChild_volumes ..)⟩⟩
        | some n =>
          dsimp only
          split_ifs with hnew hsame
          · exact ⟨rfl, .inr ⟨p, rfl, q, rfl, .inr (freeChild_volumes ..)⟩⟩
          all_goals
            have hvol : (((s.lookup p.1).1.lookup q.1).1.nodes o).vol ≠
                (((s.lookup p.1).1.lookup q.1).1.nodes n).vol :=
              fun heq => hdiff ⟨p, q, o, n, hp, hq, ho, hn, heq⟩
            rw [renameIn, if_pos hvol]
            exact ⟨rfl, .inr ⟨p, rfl, q, rfl, .inr (by simp)⟩⟩

end State

/-- Two volumes with their root nodes, mounted at `/` and at `/mnt`. -/
def twoMounts (first second : Volume) (root root' : Node) : State where
  volumes := fun v => if v = 0 then first else second
  nodes := fun n => if n = 0 then ⟨0, root, none⟩ else ⟨1, root', none⟩
  fresh := 2
  released := []
  mounts := [⟨[47], 0⟩, ⟨[47, 109, 110, 116], 1⟩]
  fds := fun _ => none
  cwd := none

section
variable {first second : Volume} {root root' : Node}

theorem mem_twoMounts {m : Mount} (hm : m ∈ (twoMounts first second root root').mounts) :
    m = ⟨[47], 0⟩ ∨ m = ⟨[47, 109, 110, 116], 1⟩ := by
  simpa [twoMounts] using hm

theorem twoMounts_mounted {g : Superblock} (hfirst : Consistent g first)
    (hsecond : Consistent g second) (hroot : Current g first.disk root ∧ root.inodeNum = 0)
    (hroot' : Current g second.disk root' ∧ root'.inodeNum = 0) :
    Mounted (fun _ => g) (twoMounts first second root root') := by
  have hknown : ∀ {vol : Volume} {node : Node}, Current g vol.disk node ∧ node.inodeNum = 0 →
      Known g vol node := fun h => ⟨h.1, fun _ => by rw [h.2]; exact .root⟩
  refine ⟨fun m hm => ?_, fun m hm => ?_, fun m hm => ?_⟩ <;>
    obtain rfl | rfl := mem_twoMounts hm
  · exact hfirst
  · exact hsecond
  · exact hknown hroot
  · exact hknown hroot'
  · exact Nat.two_pos
  · exact Nat.one_lt_two

end

/-- Make a file `x` and a symlink `l` to `/mnt`. -/
def linkedCalls : List Exfs.Call :=
  [.create 0 [120] 0 0 0, .symlink 0 [108] [47, 109, 110, 116] 0 0]

def linkedFs : Fs := Exfs.run sampleFs linkedCalls

def linked : State :=
  twoMounts linkedFs.vol sampleMount.1 (linkedFs.nodes.getD 0 freshRoot) sampleMount.2

theorem linkedCalls_meet : Exfs.MeetsAll sampleSuperblock sampleFs linkedCalls :=
  ⟨root_clean (f := 1) (by decide) (by decide +kernel),
    root_clean (f := 1) (by decide) (by decide +kernel), trivial⟩

/-- The sample volume after some calls, mounted with a second sample volume. -/
theorem mounted_of_run {calls : List Exfs.Call} {root : Node}
    (h : Exfs.MeetsAll sampleSuperblock sampleFs calls)
    (hroot : Current sampleSuperblock (Exfs.run sampleFs calls).vol.disk root ∧ root.inodeNum = 0) :
    Mounted (fun _ => sampleSuperblock)
      (twoMounts (Exfs.run sampleFs calls).vol sampleMount.1 root sampleMount.2) := by
  have hsecond : Consistent sampleSuperblock sampleMount.1 := by
    simpa only [sampleFs] using sampleFs_start.consistent
  exact twoMounts_mounted (sampleFs_start.consistent.run h).consistent hsecond hroot
    (by decide +kernel)

theorem linked_mounted : Mounted (fun _ => sampleSuperblock) linked :=
  mounted_of_run linkedCalls_meet (by decide +kernel)

/-- The volume and the inode number of the file a path names. -/
def State.fileAt (s : State) (path : List UInt8) : Option (ℕ × ℕ) :=
  (s.lookup path).2.map fun n =>
    (((s.lookup path).1.nodes n).vol, ((s.lookup path).1.nodes n).node.inodeNum)

/-- The file has the given content; `g` is the geometry of the volumes. -/
def State.Holds (g : ℕ → Superblock) (s : State) (f : ℕ × ℕ) (ref : List UInt8) : Prop :=
  Content (s.volumes f.1).disk (inodeTable (g f.1) (s.volumes f.1).disk f.2) ref

structure State.AtStart (g : ℕ → Superblock) (s : State) (fd : ℤ) (e : Fd) (f : ℕ × ℕ) : Prop where
  active : s.fdAt fd = some e
  offset : e.offset = 0
  vol : (s.nodes e.node).vol = f.1
  inodeNum : (s.nodes e.node).node.inodeNum = f.2
  rest : Rest (g f.1) (s.volumes f.1)
  current : Current (g f.1) (s.volumes f.1).disk (s.nodes e.node).node

section
variable {g : ℕ → Superblock} {s s' s1 s2 : State} {c : Caller} {path old data : List UInt8}
  {fd : ℤ} {flags : UInt32} {f : ℕ × ℕ}

theorem Reaches.node (hm : Mounted g s) (hr : ReadsOnly g s s') {n : ℕ} (h : Reaches g s s' n) :
    (∃ m ∈ s.mounts, (s'.nodes n).vol = (s.nodes m.root).vol) ∧
      Known (g (s'.nodes n).vol) (s'.volOf n) (s'.nodes n).node := by
  rcases h with ⟨m, hmem, rfl⟩ | ⟨-, -, hvol, -, hexact⟩
  · have hmem' : m ∈ s'.mounts := by rw [hr.mounts]; exact hmem
    exact ⟨⟨m, hmem, by rw [hr.nodes _ (hm.live m hmem)]⟩, (hm.reads hr).known m hmem'⟩
  · exact ⟨hvol, hexact.toKnown⟩

theorem State.freeFd_lt {i : ℕ} (h : s.freeFd = some i) : i < 64 := by
  have := List.mem_range'_1.mp (List.mem_of_find?_eq_some h)
  omega

theorem State.fdAt_setFd {i : ℕ} (hi : i < 64) (e : Option Fd) : (s.setFd i e).fdAt i = e := by
  rw [fdAt, if_pos ⟨Int.natCast_nonneg i, by exact_mod_cast hi⟩, Int.toNat_natCast]
  exact update_self ..

/-- After a successful `vfs_open` of a file the descriptor is at its start, and the content has not
changed. -/
theorem vfsOpen_holds (hm : Mounted g s) (hdirs : State.InDirs true 9 s path)
    (hopen : s.vfsOpen c path flags = (s1, fd)) (hfd : 0 ≤ fd) (hf : s.fileAt path = some f)
    (hold : s.Holds g f old) : (∃ e, s1.AtStart g fd e f) ∧ s1.Holds g f old := by
  obtain ⟨n, hn, -, hfree, hs1⟩ := vfsOpen_ok hopen hfd
  have hlook : ReadsOnly g s (s.lookup path).1 ∧
      ∀ n, (s.lookup path).2 = some n → Reaches g s (s.lookup path).1 n :=
    lookupImpl_reads hm hdirs
  unfold fileAt at hf
  generalize s.lookup path = r at *
  obtain ⟨t, k⟩ := r
  dsimp only at hn hfree hs1 hlook hf
  subst hn
  obtain rfl := Option.some.inj hf
  obtain ⟨⟨m, hmem, hvol⟩, hknown⟩ := (hlook.2 n rfl).node hm hlook.1
  have hread := hlook.1.mounted m hmem
  rw [volOf, ← hvol] at hread
  obtain ⟨hread', hinode⟩ := opOpen_onlyRead hread.consistent hknown.current.bound
  have hvols : s1.volumes (t.nodes n).vol = ((t.volOf n).opOpen (t.nodes n).node).1 := by
    rw [hs1]
    exact update_self ..
  have hnode : s1.nodes n = { t.nodes n with node := ((t.volOf n).opOpen (t.nodes n).node).2.1 } := by
    rw [hs1]
    exact update_self ..
  have hcons := (hm.consistent m hmem).rest
  rw [volOf, ← hvol] at hcons
  rw [State.Holds, hvols]
  refine ⟨⟨⟨n, 0, c.pid⟩, ⟨?_, rfl, by rw [hnode], by rw [hnode]; rfl, ?_, ?_⟩⟩, ?_⟩
  · rw [hs1]
    have hset := fdAt_setFd (s := t.openNode n) (freeFd_lt hfree) (some ⟨n, 0, c.pid⟩)
    rwa [Int.toNat_of_nonneg hfd] at hset
  · rw [hvols]
    exact hread'.consistent.rest
  · rw [hvols, hnode]
    refine ⟨hknown.current.bound, ?_⟩
    exact hinode ▸ Agrees.refl _
  · exact hread'.content hread.consistent.rest (hread.content hcons hold)

theorem vfsWrite_holds {e : Fd} (he : s.AtStart g fd e f) (hold : s.Holds g f old)
    (hw : s.vfsWrite fd data = (s', (data.length : ℤ))) : s'.Holds g f (overlay old 0 data) := by
  unfold vfsWrite at hw
  rw [he.active] at hw
  dsimp only [writeNode] at hw
  have hoff : e.offset.toNat = 0 := by rw [he.offset]; rfl
  rw [volOf, he.vol, hoff] at hw
  generalize hres : (s.volumes f.1).opWrite (s.nodes e.node).node 0 data = res at hw
  obtain ⟨rfl, hlen⟩ := Prod.mk.inj hw
  have hcount : res.2.2 = data.length := by exact_mod_cast hlen
  have hcont : Content (s.volumes f.1).disk (s.nodes e.node).node.inode old := by
    have hagrees := he.current.agrees
    rw [he.inodeNum] at hagrees
    exact Content.of_agrees hold
      ⟨fun r => (hagrees.root r).symm, hagrees.mode.symm, hagrees.size.symm⟩
  have hnew := hcont.opWrite he.rest he.current (.inl (Nat.zero_le _)) hres.symm
  rw [hcount, List.take_length] at hnew
  have hwritten := he.rest.opWrite he.current.bound he.current.agrees 0 data rfl hres.symm
  have hagrees := hwritten.agrees
  rw [he.inodeNum] at hagrees
  have hvols : (setFd (s.after e.node res.1 res.2.1) fd.toNat
      (some { e with offset := e.offset + UInt64.ofNat res.2.2 })).volumes f.1 = res.1 := by
    change update s.volumes (s.nodes e.node).vol res.1 f.1 = res.1
    rw [he.vol, update_self]
  rw [State.Holds, hvols]
  exact hnew.of_agrees hagrees

/-- The path names a node that `vfs_open` lets the caller open. -/
def State.MayOpen (s : State) (c : Caller) (path : List UInt8) (flags : UInt32) : Prop :=
  ∃ n, (s.lookup path).2 = some n ∧ permitted c ((s.lookup path).1.nodes n).node flags

theorem State.lookup_freeFd (s : State) (path : List UInt8) : (s.lookup path).1.freeFd = s.freeFd :=
  freeFd_congr (lookupImpl_looks true 9 s path).extends.fds

theorem State.MayOpen.full (h : s.MayOpen c path flags) (hfails : ¬ 0 ≤ (s.vfsOpen c path flags).2) :
    s.freeFd = none := by
  obtain ⟨n, hn, hperm⟩ := h
  rw [← s.lookup_freeFd path]
  unfold vfsOpen at hfails
  dsimp only at hfails
  rw [hn] at hfails
  simp only [hperm, Bool.not_true, Bool.false_eq_true, if_false] at hfails
  unfold install at hfails
  cases hi : (s.lookup path).1.freeFd with
  | none => rfl
  | some i =>
    rw [hi] at hfails
    exact absurd (Int.natCast_nonneg i) hfails

theorem State.install_full (h : s.freeFd = none) (c : Caller) (n : ℕ) :
    s.install c n = (s.freeChild n, -1) := by
  rw [install, h]

theorem State.vfsOpen_full (h : s.freeFd = none) (c : Caller) (path : List UInt8)
    (flags : UInt32) : (s.vfsOpen c path flags).2 < 0 ∧ (s.vfsOpen c path flags).1.fds = s.fds := by
  have hfds := (lookupImpl_looks true 9 s path).extends.fds
  have hfull := (s.lookup_freeFd path).trans h
  unfold vfsOpen
  dsimp only
  split
  · exact ⟨by omega, hfds⟩
  split_ifs
  · exact ⟨by omega, (freeChild_fds ..).trans hfds⟩
  rw [install_full hfull]
  exact ⟨by omega, (freeChild_fds ..).trans hfds⟩

theorem State.vfsCreate_full (h : s.freeFd = none) (c : Caller) (path : List UInt8)
    (type : UInt8) : (s.vfsCreate c path type).2 < 0 ∧ (s.vfsCreate c path type).1.fds = s.fds := by
  unfold vfsCreate
  split
  · exact ⟨by omega, rfl⟩
  next parent name _ =>
    have hfds : (s.lookup parent).1.fds = s.fds := (lookupImpl_looks true 9 s parent).extends.fds
    split_ifs
    · exact ⟨by omega, rfl⟩
    dsimp only
    split
    · exact ⟨by omega, hfds⟩
    next dir _ =>
      have hmade : (((s.lookup parent).1.createIn dir name type c).1.freeChild dir).fds = s.fds := by
        rw [freeChild_fds, createIn_fds, hfds]
      split_ifs
      · exact ⟨by omega, hfds⟩
      split
      · exact ⟨by omega, hmade⟩
      rw [install_full ((freeFd_congr hmade).trans h)]
      exact ⟨by omega, (freeChild_fds ..).trans hmade⟩

theorem State.sysOpen_of_mayOpen (h : s.MayOpen c path flags)
    (hopen : s.sysOpen c path flags = (s1, fd)) (hfd : 0 ≤ fd) :
    s.vfsOpen c path flags = (s1, fd) := by
  unfold sysOpen at hopen
  dsimp only at hopen
  split_ifs at hopen with hlen hfirst hcreated
  · cases hopen
    omega
  · exact hopen
  all_goals
    obtain ⟨hfails, -⟩ := not_or.mp hfirst
    obtain ⟨-, hfds⟩ := vfsOpen_full (h.full hfails) c path flags
    have hfull := (freeFd_congr hfds).trans (h.full hfails)
    obtain ⟨hneg, hfds'⟩ := vfsCreate_full hfull c path 0
  · omega
  · have hlast := (vfsOpen_full ((freeFd_congr hfds').trans hfull) c path flags).1
    rw [hopen] at hlast
    omega

theorem State.sysFileWrite_of_mayOpen {len : ℕ} (h : s.MayOpen c path 1)
    (hw : s.sysFileWrite c path data = (s', (len : ℤ))) :
    ∃ s1 fd s2, s.vfsOpen c path 1 = (s1, fd) ∧ 0 ≤ fd ∧ s1.vfsWrite fd data = (s2, (len : ℤ)) ∧
      s' = (s2.vfsClose fd).1 := by
  unfold sysFileWrite at hw
  dsimp only at hw
  split_ifs at hw with hfirst hneg hagain
  · obtain ⟨rfl, hlen⟩ := Prod.mk.inj hw
    exact ⟨_, _, _, rfl, hfirst, Prod.mk.eta.symm.trans (congrArg (Prod.mk _) hlen), rfl⟩
  all_goals
    obtain ⟨-, hfds⟩ := vfsOpen_full (h.full hfirst) c path 1
    have hfull := (freeFd_congr hfds).trans (h.full hfirst)
    have hcreate := (vfsCreate_full hfull c path 0).1
  · have := (Prod.mk.inj hw).2
    omega
  · omega
  · omega

/-- For every file that the caller may open, every previous content and all data, when the call
reports all of them as written: `sys_file_write`, and a write after an open with `O_TRUNC`, leave
just the data exactly when the file was not longer; a write after an open with `O_APPEND` appends
only if there is nothing to append or nothing to append to. -/
theorem writes_replace_iff (hm : Mounted g s) (hdirs : State.InDirs true 9 s path)
    (hf : s.fileAt path = some f) (hold : s.Holds g f old) :
    (∀ s', s.MayOpen c path 1 → s.sysFileWrite c path data = (s', (data.length : ℤ)) →
      (s'.Holds g f data ↔ old.length ≤ data.length)) ∧
    ∀ flags s1 fd s2, s.MayOpen c path flags → s.sysOpen c path flags = (s1, fd) → 0 ≤ fd →
      s1.vfsWrite fd data = (s2, (data.length : ℤ)) →
        (flags &&& 0x200 ≠ 0 → (s2.Holds g f data ↔ old.length ≤ data.length)) ∧
        (flags &&& 0x400 ≠ 0 → (s2.Holds g f (old ++ data) ↔ old = [] ∨ data = [])) := by
  have hiff : ∀ {s2 : State} {ref : List UInt8}, s2.Holds g f (overlay old 0 data) →
      (s2.Holds g f ref ↔ overlay old 0 data = ref) := fun hnew =>
    ⟨fun href => Content.unique hnew href, fun heq => heq ▸ hnew⟩
  have hwrite : ∀ {flags : UInt32} {s1 s2 : State} {fd : ℤ}, s.vfsOpen c path flags = (s1, fd) →
      0 ≤ fd → s1.vfsWrite fd data = (s2, (data.length : ℤ)) →
      s2.Holds g f (overlay old 0 data) := by
    intro flags s1 s2 fd hopen hfd hw
    obtain ⟨⟨e, he⟩, hsame⟩ := vfsOpen_holds hm hdirs hopen hfd hf hold
    exact vfsWrite_holds he hsame hw
  constructor
  · intro s' hmay hw
    obtain ⟨s1, fd, s2, hopen, hfd, hwritten, rfl⟩ := sysFileWrite_of_mayOpen hmay hw
    rw [State.Holds, vfsClose_volumes, ← State.Holds, hiff (hwrite hopen hfd hwritten)]
    exact overlay_zero_eq_iff old data
  · intro flags s1 fd s2 hmay hopen hfd hw
    have hnew := hwrite (sysOpen_of_mayOpen hmay hopen hfd) hfd hw
    rw [hiff hnew, hiff hnew]
    exact ⟨fun _ => overlay_zero_eq_iff old data, fun _ => overlay_zero_eq_append_iff old data⟩

end

/-- Make a file `f` with the bytes `ab`. -/
def writtenCalls : List Exfs.Call := [.create 0 [102] 0 0 0, .write 1 0 [97, 98]]

def writtenFs : Fs := Exfs.run sampleFs writtenCalls

def written : State :=
  twoMounts writtenFs.vol sampleMount.1 (writtenFs.nodes.getD 0 freshRoot) sampleMount.2

theorem written_mounted : Mounted (const ℕ sampleSuperblock) written :=
  mounted_of_run ⟨sampleCreate_meets, sampleWrite_meets 0 [97, 98], trivial⟩ (by decide +kernel)

theorem written_holds : written.Holds (const ℕ sampleSuperblock) (0, 1) [97, 98] := by
  constructor
  · decide +kernel
  · decide +kernel

theorem written_file_write : (written.sysFileWrite ⟨1, 0, 0⟩ [47, 102] [120, 121, 122]).1.Holds
    (const ℕ sampleSuperblock) (0, 1) [120, 121, 122] := by
  have hdirs : State.InDirs true 9 written [47, 102] := by decide +kernel
  have hf : written.fileAt [47, 102] = some (0, 1) := by decide +kernel
  have hmay : (written.lookup [47, 102]).2 = some 2 ∧
      permitted ⟨1, 0, 0⟩ ((written.lookup [47, 102]).1.nodes 2).node 1 := by decide +kernel
  have hlen : (written.sysFileWrite ⟨1, 0, 0⟩ [47, 102] [120, 121, 122]).2 = 3 := by decide +kernel
  have hiff : ∀ s', written.MayOpen ⟨1, 0, 0⟩ [47, 102] 1 →
      written.sysFileWrite ⟨1, 0, 0⟩ [47, 102] [120, 121, 122] = (s', 3) →
      (s'.Holds (const ℕ sampleSuperblock) (0, 1) [120, 121, 122] ↔ 2 ≤ 3) :=
    (writes_replace_iff written_mounted hdirs hf written_holds).1
  generalize written.sysFileWrite ⟨1, 0, 0⟩ [47, 102] [120, 121, 122] = r at hlen hiff ⊢
  obtain ⟨s', k⟩ := r
  exact (hiff s' ⟨2, hmay⟩ (congrArg (Prod.mk s') hlen)).mpr (by decide)

def State.bytes (s : State) (f : ℕ × ℕ) : List (Option UInt8) :=
  let i := inodeTable sampleSuperblock (s.volumes f.1).disk f.2
  (List.range i.size.toNat).map (byteAt (s.volumes f.1).disk i)

/-- `sys_file_write` of `x` over `ab` leaves `xb`, and so does a write of `x` after an open with
`O_TRUNC` or with `O_APPEND`. -/
theorem written_not_replaced : written.bytes (0, 1) = [some 97, some 98] ∧
    (written.sysFileWrite ⟨1, 0, 0⟩ [47, 102] [120]).2 = 1 ∧
    (written.sysFileWrite ⟨1, 0, 0⟩ [47, 102] [120]).1.bytes (0, 1) = [some 120, some 98] ∧
    (written.sysOpen ⟨1, 0, 0⟩ [47, 102] 0x201).2 = 3 ∧
    ((written.sysOpen ⟨1, 0, 0⟩ [47, 102] 0x201).1.vfsWrite 3 [120]).2 = 1 ∧
    ((written.sysOpen ⟨1, 0, 0⟩ [47, 102] 0x201).1.vfsWrite 3 [120]).1.bytes (0, 1) =
      [some 120, some 98] ∧
    (written.sysOpen ⟨1, 0, 0⟩ [47, 102] 0x401).2 = 3 ∧
    ((written.sysOpen ⟨1, 0, 0⟩ [47, 102] 0x401).1.vfsWrite 3 [120]).2 = 1 ∧
    ((written.sysOpen ⟨1, 0, 0⟩ [47, 102] 0x401).1.vfsWrite 3 [120]).1.bytes (0, 1) =
      [some 120, some 98] := by
  decide +kernel

end Exploidus.Vfs
