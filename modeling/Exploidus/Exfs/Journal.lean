import Exploidus.Exfs.Volume
import Exploidus.Lib.RedoLog

/-! The metadata journal: staging, commit and replay, and the atomicity of a commit. -/
namespace Exploidus.Exfs
open WriteLog RedoLog List

namespace Volume

/-- Replace the first staged copy of block `b`; `none` when there is none. -/
def restage (b : ℕ) (buf : Block) : List (ℕ × Block) → Option (List (ℕ × Block))
  | [] => none
  | p :: t => if p.1 = b then some ((b, buf) :: t) else (restage b buf t).map (p :: ·)

/-- `exfs_journal_stage`: without a staging buffer, or past `EXFS_JOURNAL_MAX_BLOCKS` blocks,
the block is written straight through. -/
def journalStage (vol : Volume) (b : ℕ) (buf : Block) : Volume :=
  if !vol.jtxnData then vol.writeBlock b buf
  else match restage b buf vol.jtxn with
    | some t => { vol with jtxn := t }
    | none =>
      if 16 ≤ vol.jtxn.length then vol.writeBlock b buf
      else { vol with jtxn := vol.jtxn ++ [(b, buf)] }

def metaWriteBlock (vol : Volume) (b : ℕ) (buf : Block) : Volume :=
  if vol.jtxnActive then vol.journalStage b buf else vol.writeBlock b buf

def staged (vol : Volume) (b : ℕ) : Option Block :=
  (vol.jtxn.find? (fun p => p.1 = b)).map Prod.snd

def txnReadBlock (vol : Volume) (b : ℕ) : Block :=
  if vol.jtxnActive && vol.jtxnData then (vol.staged b).getD (vol.readBlock b)
  else vol.readBlock b

def journalBegin (vol : Volume) : Volume := { vol with jtxnActive := true, jtxn := [] }

/-- `exfs_journal_commit`: the staged contents into the slots, the header, the home
locations, and the cleared header. -/
def journalCommit (vol : Volume) : Volume :=
  if !vol.jtxnActive then vol
  else
    let vol := { vol with jtxnActive := false }
    let t := vol.jtxn
    if t.length = 0 then vol
    else if vol.sb.journalSize = 0 ∨ !vol.jtxnData ∨ vol.sb.journalSize - 1 < t.length then
      { vol.writeAll t with jtxn := [] }
    else
      let jb := vol.sb.journalBlock
      let vol := vol.writeAll (slotWrites jb 0 t)
      let vol := vol.writeBlock jb (journalHeader (t.map Prod.fst))
      let vol := vol.writeAll t
      let vol := vol.writeBlock jb zeroBlock
      { vol with jtxn := [] }

/-- The redo loop of `exfs_journal_replay` from slot `i` on. -/
def redoFrom (vol : Volume) (hdr : Block) : ℕ → ℕ → Volume
  | 0, _ => vol
  | count + 1, i =>
    redoFrom (vol.writeBlock (headerTarget hdr i) (vol.readBlock (vol.sb.journalBlock + 1 + i)))
      hdr count (i + 1)

def journalReplay (vol : Volume) : Volume :=
  if vol.sb.journalSize = 0 then vol
  else
    let hdr := vol.readBlock vol.sb.journalBlock
    if headerMagic hdr ≠ journalMagic then vol
    else (vol.redoFrom hdr (min (headerCount hdr) 16) 0).writeBlock vol.sb.journalBlock zeroBlock

end Volume

def journalFormat : Format Block where
  cap := 16
  bound := 2 ^ 64
  header := journalHeader
  clear := zeroBlock
  parse b :=
    if headerMagic b = journalMagic then
      some ((range (min (headerCount b) 16)).map (headerTarget b))
    else none
  parse_header ts hlen hfit := by
    rw [if_pos (headerMagic_journalHeader hlen), headerCount_journalHeader hlen,
      Nat.min_eq_left hlen]
    congr 1
    apply ext_getElem (by simp)
    intro i h1 h2
    rw [getElem_map, getElem_range]
    exact headerTarget_journalHeader hlen h2 (hfit _ (getElem_mem h2))
  parse_clear := by simp [journalMagic]

theorem journalFormat_clear : journalFormat.clear = zeroBlock := rfl

theorem parse_eq_none {b : Block} (h : headerMagic b ≠ journalMagic) :
    journalFormat.parse b = none := if_neg h

theorem parse_eq_none_iff {b : Block} :
    journalFormat.parse b = none ↔ headerMagic b ≠ journalMagic := by
  refine ⟨fun h hm => ?_, parse_eq_none⟩
  simp [journalFormat, hm] at h

namespace Volume

theorem wrote_journalCommit {vol : Volume} (hactive : vol.jtxnActive)
    (hdata : vol.jtxnData) (hsize : vol.sb.journalSize = 17)
    (hpos : vol.jtxn ≠ []) (hlen : vol.jtxn.length ≤ 16) :
    Wrote vol (commitWrites journalFormat vol.sb.journalBlock vol.jtxn) vol.journalCommit := by
  have hne : vol.jtxn.length ≠ 0 := by simpa using hpos
  have hfits : ¬ (vol.sb.journalSize = 0 ∨ (!vol.jtxnData) ∨
      vol.sb.journalSize - 1 < vol.jtxn.length) := by
    rw [hsize, hdata]
    simp only [Bool.not_true, Bool.false_eq_true, false_or]
    omega
  simp only [journalCommit, hactive, Bool.not_true, Bool.false_eq_true, if_false, hne, hfits]
  have h1 := wrote_writeAll { vol with jtxnActive := false }
    (slotWrites vol.sb.journalBlock 0 vol.jtxn)
  have h2 := h1.trans (wrote_writeBlock _ vol.sb.journalBlock
    (journalHeader (vol.jtxn.map Prod.fst)))
  have h3 := (h2.trans (wrote_writeAll _ vol.jtxn)).trans
    (wrote_writeBlock _ vol.sb.journalBlock zeroBlock)
  constructor
  · rw [h3.log]
    simp [commitWrites, journalFormat]
  · rw [h3.disk]
    simp [commitWrites, journalFormat]

theorem wrote_redoFrom (vol : Volume) (hdr : Block) (count i : ℕ) :
    Wrote vol (redoWrites vol.sb.journalBlock vol.disk i
      ((range' i count).map (headerTarget hdr))) (vol.redoFrom hdr count i) := by
  induction count generalizing vol i with
  | zero => exact Wrote.refl vol
  | succ count ih =>
    rw [range'_succ, map_cons, redoWrites, redoFrom]
    have h := wrote_writeBlock vol (headerTarget hdr i)
      (vol.readBlock (vol.sb.journalBlock + 1 + i))
    have h' := ih (vol.writeBlock (headerTarget hdr i)
      (vol.readBlock (vol.sb.journalBlock + 1 + i))) (i + 1)
    rw [writeBlock_sb, writeBlock_disk] at h'
    exact h.trans h'

theorem wrote_journalReplay {vol : Volume} (hsize : vol.sb.journalSize = 17) :
    Wrote vol (replayWrites journalFormat vol.sb.journalBlock vol.disk) vol.journalReplay := by
  have hne : vol.sb.journalSize ≠ 0 := by omega
  unfold journalReplay
  rw [if_neg hne]
  by_cases hm : headerMagic (vol.disk vol.sb.journalBlock) = journalMagic
  · have hparse : journalFormat.parse (vol.disk vol.sb.journalBlock) =
        some ((range' 0 (min (headerCount (vol.disk vol.sb.journalBlock)) 16)).map
          (headerTarget (vol.disk vol.sb.journalBlock))) := by
      simp [journalFormat, hm, range_eq_range']
    simp only [replayWrites, hparse, readBlock, hm, ne_eq, not_true_eq_false, if_false]
    have h := (wrote_redoFrom vol (vol.disk vol.sb.journalBlock)
      (min (headerCount (vol.disk vol.sb.journalBlock)) 16) 0).trans
      (wrote_writeBlock _ vol.sb.journalBlock zeroBlock)
    rwa [← journalFormat_clear] at h
  · simp only [replayWrites, parse_eq_none hm, readBlock, ne_eq, hm, not_false_eq_true, if_true]
    exact Wrote.refl vol

end Volume

/-- A mount of the device `d` whose journal replay is stopped between two writes and leaves `d'`.
The mounted volume has its journal at block `jb`. -/
def ReplayStopped (jb : ℕ) (d d' : ℕ → Block) : Prop :=
  ∃ vol : Volume, vol.disk = d ∧ vol.sb.journalBlock = jb ∧ vol.sb.journalSize = 17 ∧
    ∃ k, d' = vol.stoppedAt vol.journalReplay k

theorem ReplayStopped.stopped {jb : ℕ} {d d' : ℕ → Block} (h : ReplayStopped jb d d') :
    Stopped journalFormat jb d d' := by
  obtain ⟨vol, rfl, rfl, hsize, k, rfl⟩ := h
  exact ⟨k, (Volume.wrote_journalReplay hsize).stoppedAt k⟩

/-- Journal crash atomicity: stop a commit after `k` writes, stop any number of replays of later
mounts, and let one replay finish. Write number `jtxn.length` is the header; a stop before it
leaves every block outside the journal as it was, a stop after it leaves every target with its
staged content and nothing else changed. -/
theorem journalCommit_crash_atomic (vol : Volume) (hactive : vol.jtxnActive = true)
    (hdata : vol.jtxnData = true) (hsize : vol.sb.journalSize = 17)
    (hclear : headerMagic (vol.disk vol.sb.journalBlock) ≠ journalMagic)
    (hpos : 1 ≤ vol.jtxn.length) (hlen : vol.jtxn.length ≤ 16)
    (hnodup : (vol.jtxn.map Prod.fst).Nodup)
    (hhome : ∀ p ∈ vol.jtxn, p.1 < vol.sb.journalBlock ∨ vol.sb.journalBlock + 17 ≤ p.1)
    (hfit : ∀ p ∈ vol.jtxn, p.1 < 2 ^ 64)
    (k : ℕ) (d : ℕ → Block)
    (hstops : Relation.ReflTransGen (ReplayStopped vol.sb.journalBlock)
      (vol.stoppedAt vol.journalCommit k) d)
    (next : Volume) (hdisk : next.disk = d)
    (hjb : next.sb.journalBlock = vol.sb.journalBlock) (hjs : next.sb.journalSize = 17) :
    (vol.writesSince vol.journalCommit)[vol.jtxn.length]? =
        some (vol.sb.journalBlock, journalHeader (vol.jtxn.map Prod.fst)) ∧
      (k ≤ vol.jtxn.length → ∀ b, b < vol.sb.journalBlock ∨ vol.sb.journalBlock + 17 ≤ b →
        next.journalReplay.disk b = vol.disk b) ∧
      (vol.jtxn.length < k → (∀ p ∈ vol.jtxn, next.journalReplay.disk p.1 = p.2) ∧
        ∀ b, b < vol.sb.journalBlock ∨ vol.sb.journalBlock + 17 ≤ b →
          (∀ p ∈ vol.jtxn, p.1 ≠ b) → next.journalReplay.disk b = vol.disk b) := by
  have hne : vol.jtxn ≠ [] := ne_nil_of_length_pos hpos
  have hcommit := Volume.wrote_journalCommit hactive hdata hsize hne hlen
  have hout : ∀ b, b < vol.sb.journalBlock ∨ vol.sb.journalBlock + 17 ≤ b →
      ¬ InLog journalFormat vol.sb.journalBlock b := by
    intro b hb hin
    have hcap : b < vol.sb.journalBlock + 1 + 16 := hin.2
    have := hin.1
    omega
  have hvalid : Valid journalFormat vol.sb.journalBlock vol.jtxn :=
    ⟨hlen, hnodup, fun p hp => hout p.1 (hhome p hp), hfit⟩
  have hmany : StoppedMany journalFormat vol.sb.journalBlock
      (applyWrites vol.disk ((commitWrites journalFormat vol.sb.journalBlock vol.jtxn).take k))
      d := by
    rw [← hcommit.stoppedAt k]
    exact Relation.ReflTransGen.mono (fun _ _ => ReplayStopped.stopped) _ _ hstops
  have hfinal : next.journalReplay.disk = recover journalFormat vol.sb.journalBlock d := by
    rw [(Volume.wrote_journalReplay hjs).disk, hdisk, hjb]
    rfl
  obtain ⟨hbefore, hafter⟩ := atomic hvalid (parse_eq_none hclear) k hmany
  refine ⟨?_, fun hk b hb => ?_, fun hk => ⟨fun p hp => ?_, fun b hb hb' => ?_⟩⟩
  · rw [hcommit.writesSince, commitWrites,
      getElem?_append_right (by rw [length_slotWrites]), length_slotWrites, Nat.sub_self]
    rfl
  · rw [hfinal, (hbefore hk).agree b (hout b hb)]
  · rw [hfinal, (hafter hk).agree p.1 (hout p.1 (hhome p hp))]
    exact applyWrites_of_mem hnodup hp
  · rw [hfinal, (hafter hk).agree b (hout b hb)]
    exact applyWrites_of_forall_ne hb'

/-- A volume with the journal at block 10 and block 5 staged with bytes 7. -/
def stagedSample : Volume where
  sb := ⟨exfsMagic, 1, 64, 0, 0, 0, 2, 1, 3, 40, 16, 10, 17, 1⟩
  blockBitmap _ := 0
  disk _ := zeroBlock
  log := []
  jtxnActive := true
  jtxnData := true
  jtxn := [(5, fun _ => 7)]
  auditTotal := 0

def sampleOn (d : ℕ → Block) : Volume := { stagedSample with disk := d }

/-- A stop right after the header write, a replay stopped after its first write, a full replay. -/
theorem stagedSample_recovered :
    let half := sampleOn (stagedSample.stoppedAt stagedSample.journalCommit 2)
    (sampleOn (half.stoppedAt half.journalReplay 1)).journalReplay.disk 5 = fun _ => 7 := by
  intro half
  have hdisk : ∀ d, (sampleOn d).disk = d := fun _ => rfl
  have htarget : ∀ p ∈ stagedSample.jtxn, p.1 = 5 := by
    intro p hp
    rw [mem_singleton.mp hp]
  have hstop : ReplayStopped 10 (stagedSample.stoppedAt stagedSample.journalCommit 2)
      (half.stoppedAt half.journalReplay 1) := ⟨half, hdisk _, rfl, rfl, 1, rfl⟩
  have h := journalCommit_crash_atomic stagedSample rfl rfl rfl (by decide) (by decide)
    (by decide) (by decide) (fun p hp => .inl (by rw [htarget p hp]; decide))
    (fun p hp => by rw [htarget p hp]; decide) 2 _ (Relation.ReflTransGen.single hstop)
    (sampleOn (half.stoppedAt half.journalReplay 1)) (hdisk _) rfl rfl
  obtain ⟨-, -, hafter⟩ := h
  obtain ⟨htargets, -⟩ := hafter (by decide)
  simpa only using htargets (5, fun _ => 7) mem_cons_self

end Exploidus.Exfs
