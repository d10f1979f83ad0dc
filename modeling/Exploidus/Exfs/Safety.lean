import Exploidus.Exfs.Run

/-! What a run whose calls meet the condition guarantees: every block has one owner, the names are
in order, and a stop between two block writes loses no more than free space. Each guarantee fails
on some run that breaks the condition. -/
namespace Exploidus.Exfs
open WriteLog

/-- The block number at a site of the device, 0 where there is none. -/
def blockRef (g : Superblock) (d : ℕ → Block) (a : Site) : ℕ := siteRef (diskRoots g d) d a

/-- Every block number reached from an inode stands at one place only, names a data block, and is
marked used in memory and on the device. -/
structure BlocksOwned (g : Superblock) (vol : Volume) : Prop where
  unique : ∀ a b, blockRef g vol.disk a ≠ 0 → blockRef g vol.disk a = blockRef g vol.disk b → a = b
  inData : ∀ a, blockRef g vol.disk a ≠ 0 → InData g (blockRef g vol.disk a)
  marked : ∀ a, blockRef g vol.disk a ≠ 0 →
    bitmapGet vol.blockBitmap (blockRef g vol.disk a) = true ∧
      bitmapGet (diskBitmap g vol.disk) (blockRef g vol.disk a) = true

/-- Every entry of a directory names an inode in use, no two entries name the same inode, no
directory holds a name twice, and the inode the next creation would take is named by no entry. -/
structure NamesInOrder (g : Superblock) (vol : Volume) : Prop where
  inUse : ∀ n f k, IsDir g vol.disk n → (entry g vol.disk n f k).live = true →
    (inodeTable g vol.disk (entry g vol.disk n f k).inodeNum.toNat).inUse
  unique : ∀ n f k n' f' k', IsDir g vol.disk n → IsDir g vol.disk n' →
    (entry g vol.disk n f k).live = true →
    (entry g vol.disk n f k).inodeNum = (entry g vol.disk n' f' k').inodeNum →
      n = n' ∧ f = f' ∧ k = k'
  names : ∀ n f k f' k', IsDir g vol.disk n → (entry g vol.disk n f k).live = true →
    (entry g vol.disk n f' k').live = true →
    (entry g vol.disk n f k).text = (entry g vol.disk n f' k').text → f = f' ∧ k = k'
  free : ∀ n f k, IsDir g vol.disk n → (entry g vol.disk n f k).live = true →
    (entry g vol.disk n f k).inodeNum.toNat ≠
      vol.findFreeInode (vol.sb.totalInodes / 16 * 16) 0

/-- A mount of the device succeeds, and then every block number on it stands at one place only,
names a data block, and is marked used on the device. -/
def OnlyLeaks (g : Superblock) (d : ℕ → Block) : Prop :=
  ∀ jbuf auditTotal, ∃ vol root, mount d jbuf auditTotal = some (vol, root) ∧
    (∀ a b, blockRef g vol.disk a ≠ 0 → blockRef g vol.disk a = blockRef g vol.disk b → a = b) ∧
    ∀ a, blockRef g vol.disk a ≠ 0 → InData g (blockRef g vol.disk a) ∧
      bitmapGet (diskBitmap g vol.disk) (blockRef g vol.disk a) = true

def sampleCalls : List Call := [.create 0 [102] 0 0 0, .write 1 0 [104, 105], .unlink 0 [102]]

theorem sampleCalls_meet : MeetsAll sampleSuperblock sampleFs sampleCalls :=
  ⟨sampleCreate_meets, sampleWrite_meets 0 [104, 105], root_current (by decide +kernel), trivial⟩

section
variable {g : Superblock} {s : Fs} {cs : List Call}

/-- Every block has one owner after a run whose calls meet the condition. -/
theorem run_blocksOwned (hs : Start g s) (hm : MeetsAll g s cs) : BlocksOwned g (run s cs).vol := by
  have hr := (hs.consistent.run hm).consistent.rest
  have howned := hr.mid.owned
  rw [Volume.view_of_idle hr.idle] at howned
  exact ⟨fun a b => howned.unique, fun a h0 => (howned.ok h0).1,
    fun a h0 => ⟨(howned.ok h0).2, (hr.mid.safe.sound.ok h0).2⟩⟩

theorem sampleCalls_blocksOwned : BlocksOwned sampleSuperblock (run sampleFs sampleCalls).vol :=
  run_blocksOwned sampleFs_start sampleCalls_meet

/-- Writing through a handle whose file has been removed. -/
def staleCalls : List Call :=
  [.create 0 [102] 0 0 0, .write 1 0 [120], .unlink 0 [102], .write 1 0 [121]]

/-- The write brings the removed inode back, with a block that the removal marked free. -/
theorem staleCalls_block_unmarked :
    (inodeTable sampleSuperblock (run sampleFs staleCalls).vol.disk 1).inUse ∧
    blockRef sampleSuperblock (run sampleFs staleCalls).vol.disk ((1, .direct 0), []) ≠ 0 ∧
    bitmapGet (run sampleFs staleCalls).vol.blockBitmap
      (blockRef sampleSuperblock (run sampleFs staleCalls).vol.disk ((1, .direct 0), [])) =
        false := by
  decide +kernel

/-- The names are in order after a run whose calls meet the condition. -/
theorem run_namesInOrder (hs : Start g s) (hm : MeetsAll g s cs) :
    NamesInOrder g (run s cs).vol := by
  obtain ⟨hr, hns⟩ := (hs.consistent.run hm).consistent
  refine ⟨hns.inUse, fun n f k n' f' k' hn hn' hl he => ?_, hns.names, fun n f k hn hl he => ?_⟩
  · exact hns.unique n f k n' f' k' hn hn' hl (congrArg UInt64.toNat he)
  · exact (hr.mid.laidOut.freeInode he ((Dirent.live_iff _).mp hl)).free (hns.inUse n f k hn hl)

theorem sampleCalls_namesInOrder : NamesInOrder sampleSuperblock (run sampleFs sampleCalls).vol :=
  run_namesInOrder sampleFs_start sampleCalls_meet

/-- Setting the mode of an empty file to 0, and creating another. -/
def chmodCalls : List Call := [.create 0 [102] 0 0 0, .chmod 1 0, .create 0 [103] 0 0 0]

/-- The file's inode counts as free while its entry still names it, and the next file gets it. -/
theorem chmodCalls_inode_shared :
    (entry sampleSuperblock (run sampleFs (chmodCalls.take 2)).vol.disk 0 0 0).live = true ∧
    ¬ (inodeTable sampleSuperblock (run sampleFs (chmodCalls.take 2)).vol.disk
      (entry sampleSuperblock (run sampleFs (chmodCalls.take 2)).vol.disk
        0 0 0).inodeNum.toNat).inUse ∧
    (entry sampleSuperblock (run sampleFs chmodCalls).vol.disk 0 0 0).live = true ∧
    (entry sampleSuperblock (run sampleFs chmodCalls).vol.disk 0 0 0).inodeNum =
      (entry sampleSuperblock (run sampleFs chmodCalls).vol.disk 0 0 1).inodeNum := by
  decide +kernel

/-- However many of the writes of such a run have completed when the machine stops, the next mount
finds no block number twice and none that is marked free. -/
theorem run_stop_onlyLeaks (hs : Start g s) (hm : MeetsAll g s cs) (k : ℕ) :
    OnlyLeaks g (s.vol.stoppedAt (run s cs).vol k) := by
  intro jbuf auditTotal
  obtain ⟨d, a, hf, -⟩ := hs.formatted
  obtain ⟨ws, hwrote, hall⟩ := (hs.consistent.run hm).runs
  have hstop : s.vol.stoppedAt (run s cs).vol k = applyWrites s.vol.disk (ws.take k) := by
    rw [Volume.stoppedAt, Volume.writesSince, hwrote.log, List.drop_left]
  obtain ⟨hsuper, hsound⟩ := hall k
  rw [← hstop] at hsuper hsound
  obtain ⟨vol, root, hmount, hdisk⟩ := mount_disk hf.geometry hf.fits hsuper jbuf auditTotal
  rw [← hdisk] at hsound
  exact ⟨vol, root, hmount, fun _ _ => hsound.unique, fun _ => hsound.ok⟩

theorem sampleCalls_stop_onlyLeaks :
    OnlyLeaks sampleSuperblock (sampleFs.vol.stoppedAt (run sampleFs sampleCalls).vol 9) :=
  run_stop_onlyLeaks sampleFs_start sampleCalls_meet 9

/-- After the write through the stale handle the mount finds a block in use that is marked free. -/
theorem staleCalls_mount_unmarked :
    ∃ p ∈ mount (sampleFs.vol.stoppedAt (run sampleFs staleCalls).vol
        (run sampleFs staleCalls).vol.log.length) true 0,
      (inodeTable sampleSuperblock p.1.disk 1).inUse ∧
      blockRef sampleSuperblock p.1.disk ((1, .direct 0), []) ≠ 0 ∧
      bitmapGet (diskBitmap sampleSuperblock p.1.disk)
        (blockRef sampleSuperblock p.1.disk ((1, .direct 0), [])) = false := by
  decide +kernel

end

end Exploidus.Exfs
