import Exploidus.Exfs.Init
import Exploidus.Exfs.Sectors

/-! A journal commit on a device whose sector writes fail: what the next mount shows. -/
namespace Exploidus.Exfs
open ByteLayout WriteLog RedoLog Function Volume List

def AllDone (ok : ℕ → Bool) : Prop := ∀ s, s < 8 → ok s = true

instance (ok : ℕ → Bool) : Decidable (AllDone ok) :=
  decidable_of_iff ((range 8).all ok = true) (by simp [AllDone])

namespace Volume

/-- `exfs_write_block` on the block view of the device. -/
def tryWrite (vol : Volume) (b : ℕ) (buf : Block) (ok : ℕ → Bool) : Volume × Bool :=
  (vol.writeBlock b (torn ok buf (vol.disk b)), (range 8).all ok)

/-- Step (1) of `exfs_journal_commit`: the slots from number `i` on, until one fails. -/
def trySlots (jb : ℕ) (ok : ℕ → ℕ → Bool) : ℕ → List (ℕ × Block) → Volume → Volume × Bool
  | _, [], vol => (vol, true)
  | i, p :: t, vol =>
    let r := vol.tryWrite (jb + 1 + i) p.2 (ok i)
    if r.2 then trySlots jb ok (i + 1) t r.1 else (r.1, false)

/-- Every staged block to its home location, whatever fails on the way. -/
def tryAll (ok : ℕ → ℕ → Bool) : ℕ → List (ℕ × Block) → Volume → Volume × Bool
  | _, [], vol => (vol, true)
  | i, p :: t, vol =>
    let r := vol.tryWrite p.1 p.2 (ok i)
    let r' := tryAll ok (i + 1) t r.1
    (r'.1, r.2 && r'.2)

/-- `exfs_journal_commit` with its result; `ok k` is the outcome of the sector writes of the
`k`-th block write it makes when none before it ends the call. -/
def tryCommit (vol : Volume) (ok : ℕ → ℕ → Bool) : Volume × Bool :=
  if !vol.jtxnActive then (vol, true)
  else
    let vol := { vol with jtxnActive := false }
    let t := vol.jtxn
    if t.length = 0 then (vol, true)
    else if vol.sb.journalSize = 0 ∨ !vol.jtxnData ∨ vol.sb.journalSize - 1 < t.length then
      let r := tryAll ok 0 t vol
      ({ r.1 with jtxn := [] }, r.2)
    else
      let jb := vol.sb.journalBlock
      let r := trySlots jb ok 0 t vol
      if !r.2 then ({ r.1 with jtxn := [] }, false)
      else
        let r := r.1.tryWrite jb (journalHeader (t.map Prod.fst)) (ok t.length)
        if !r.2 then ({ r.1 with jtxn := [] }, false)
        else
          -- the results of steps (3) and (4) are not looked at
          let r := tryAll ok (t.length + 1) t r.1
          let r := r.1.tryWrite jb zeroBlock (ok (2 * t.length + 1))
          ({ r.1 with jtxn := [] }, true)

theorem tryWrite_follows {v : Drive} {vol : Volume} {b : ℕ} (buf : Block) (ok : ℕ → Bool)
    (h : ∀ x < 2 ^ 29, v.deviceBlock x = vol.disk x) (hb : b < 2 ^ 29) :
    (v.writeBlock b buf ok).2 = (vol.tryWrite b buf ok).2 ∧ ∀ x, x < 2 ^ 29 →
        (v.writeBlock b buf ok).1.deviceBlock x = (vol.tryWrite b buf ok).1.disk x := by
  constructor
  · rw [Bool.eq_iff_iff, Drive.writeBlock_snd]
    simp [tryWrite]
  intro x hx
  rw [Drive.deviceBlock_writeBlock v buf ok hb hx, tryWrite, writeBlock_disk, h b hb]
  by_cases he : x = b
  · rw [he, update_self, update_self]
  · rw [update_of_ne he, update_of_ne he, h x hx]

variable {vol : Volume} {ok : ℕ → ℕ → Bool} {t : List (ℕ × Block)} {jb : ℕ}

theorem tryWrite_snd (vol : Volume) (b : ℕ) (buf : Block) (ok : ℕ → Bool) :
    (vol.tryWrite b buf ok).2 ↔ AllDone ok := by simp [tryWrite, AllDone]

theorem tryWrite_disk (vol : Volume) (b : ℕ) (buf : Block) (ok : ℕ → Bool) :
    (vol.tryWrite b buf ok).1.disk = update vol.disk b (torn ok buf (vol.disk b)) := rfl

theorem tryCommit_of_done (vol : Volume) : vol.tryCommit (fun _ _ => true) =
    (vol.journalCommit, true) := by
  have hwrite : ∀ (v : Volume) b buf, v.tryWrite b buf (fun _ => true) =
      (v.writeBlock b buf, true) := fun v b buf => by
    rw [tryWrite, torn_of_ok fun _ _ => rfl]
    rfl
  have hslots : ∀ i t (v : Volume) jb, trySlots jb (fun _ _ => true) i t v =
      (v.writeAll (slotWrites jb i t), true) := by
    intro i t
    induction t generalizing i with
    | nil => exact fun _ _ => rfl
    | cons p t ih =>
      intro v jb
      simp only [trySlots, hwrite, if_true, ih]
      rfl
  have hall : ∀ i t (v : Volume), tryAll (fun _ _ => true) i t v = (v.writeAll t, true) := by
    intro i t
    induction t generalizing i with
    | nil => exact fun _ => rfl
    | cons p t ih =>
      intro v
      simp only [tryAll, hwrite, ih, Bool.and_self]
      rfl
  simp only [tryCommit, journalCommit, hslots, hall, hwrite, Bool.not_true, Bool.false_eq_true,
    if_false]
  split_ifs <;> rfl

private theorem allDone_succ (ok : ℕ → ℕ → Bool) (i n : ℕ) :
    (∀ k < n + 1, AllDone (ok (i + k))) ↔
      AllDone (ok i) ∧ ∀ k < n, AllDone (ok (i + 1 + k)) := by
  refine ⟨fun h => ⟨h 0 (by omega), fun k hk => ?_⟩, fun h k hk => ?_⟩
  · rw [Nat.add_right_comm]
    exact h (k + 1) (by omega)
  cases k with
  | zero => exact h.1
  | succ k =>
    rw [← Nat.add_assoc, Nat.add_right_comm]
    exact h.2 k (by omega)

theorem trySlots_frame (jb : ℕ) (ok : ℕ → ℕ → Bool) (i : ℕ) (t : List (ℕ × Block)) (vol : Volume)
    {b : ℕ} (hb : b < jb + 1 + i ∨ jb + 1 + i + t.length ≤ b) :
    (trySlots jb ok i t vol).1.disk b = vol.disk b := by
  induction t generalizing i vol with
  | nil => rfl
  | cons p t ih =>
    rw [length_cons] at hb
    have hwrite : (vol.tryWrite (jb + 1 + i) p.2 (ok i)).1.disk b = vol.disk b := by
      rw [tryWrite_disk, update_of_ne (by omega)]
    simp only [trySlots]
    split_ifs
    · rw [ih (i + 1) _ (by omega), hwrite]
    · exact hwrite

theorem trySlots_snd (jb : ℕ) (ok : ℕ → ℕ → Bool) (i : ℕ) (t : List (ℕ × Block)) (vol : Volume) :
    (trySlots jb ok i t vol).2 ↔ ∀ k < t.length, AllDone (ok (i + k)) := by
  induction t generalizing i vol with
  | nil => simp [trySlots]
  | cons p t ih =>
    rw [length_cons, allDone_succ,
      ← ih (i + 1) (vol.tryWrite (jb + 1 + i) p.2 (ok i)).1, ← tryWrite_snd vol (jb + 1 + i) p.2]
    simp only [trySlots]
    split_ifs with h <;> simp [h]

theorem trySlots_slot {i : ℕ} (h : (trySlots jb ok i t vol).2) {k : ℕ} (hk : k < t.length) :
    (trySlots jb ok i t vol).1.disk (jb + 1 + (i + k)) = t[k].2 := by
  induction t generalizing i k vol with
  | nil => simp at hk
  | cons p t ih =>
    simp only [trySlots] at h ⊢
    split_ifs at h ⊢ with hdone
    cases k with
    | zero =>
      have hslot : (vol.tryWrite (jb + 1 + i) p.2 (ok i)).1.disk (jb + 1 + i) = p.2 := by
        rw [tryWrite_disk, update_self, torn_of_ok ((tryWrite_snd _ _ _ _).mp hdone)]
      exact (trySlots_frame _ _ _ _ _ (by omega)).trans hslot
    | succ k =>
      rw [show i + (k + 1) = i + 1 + k by omega]
      exact ih h (by simpa using hk)

theorem tryAll_frame (ok : ℕ → ℕ → Bool) (i : ℕ) (t : List (ℕ × Block)) (vol : Volume) {b : ℕ}
    (hb : ∀ p ∈ t, p.1 ≠ b) : (tryAll ok i t vol).1.disk b = vol.disk b := by
  induction t generalizing i vol with
  | nil => rfl
  | cons p t ih =>
    simp only [tryAll]
    rw [ih (i + 1) _ fun q hq => hb q (mem_cons_of_mem _ hq), tryWrite_disk,
      update_of_ne (hb p mem_cons_self).symm]

theorem tryAll_target (ok : ℕ → ℕ → Bool) (i : ℕ) (hn : (t.map Prod.fst).Nodup) (vol : Volume)
    {k : ℕ} (hk : k < t.length) : (tryAll ok i t vol).1.disk t[k].1 =
      torn (ok (i + k)) t[k].2 (vol.disk t[k].1) := by
  induction t generalizing i k vol with
  | nil => simp at hk
  | cons p t ih =>
    rw [map_cons, nodup_cons] at hn
    have hne : ∀ q ∈ t, q.1 ≠ p.1 := fun q hq he => hn.1 (he ▸ mem_map_of_mem hq)
    simp only [tryAll]
    cases k with
    | zero =>
      rw [getElem_cons_zero, tryAll_frame _ _ _ _ hne, tryWrite_disk, update_self]
      rfl
    | succ k =>
      have hk' : k < t.length := by simpa using hk
      have hrec := ih (i + 1) hn.2 (vol.tryWrite p.1 p.2 (ok i)).1 hk'
      rw [getElem_cons_succ, hrec, tryWrite_disk,
        update_of_ne (hne t[k] (getElem_mem hk')), Nat.add_right_comm]
      rfl

theorem tryAll_snd (ok : ℕ → ℕ → Bool) (i : ℕ) (t : List (ℕ × Block)) (vol : Volume) :
    (tryAll ok i t vol).2 ↔ ∀ k < t.length, AllDone (ok (i + k)) := by
  induction t generalizing i vol with
  | nil => simp [tryAll]
  | cons p t ih =>
    rw [length_cons, allDone_succ, ← ih (i + 1) (vol.tryWrite p.1 p.2 (ok i)).1,
      ← tryWrite_snd vol p.1 p.2]
    simp only [tryAll, Bool.and_eq_true]

end Volume

/-! A torn header or a torn clear is decided by its first sector. -/

theorem get_torn {ok : ℕ → Bool} (h : ok 0) (buf old : Block) {off k : ℕ}
    (hk : off + k ≤ 512) : (torn ok buf old).get off k = buf.get off k := by
  refine le_congr fun i hi => ?_
  have hlt : off + i < 4096 := by omega
  have hzero : (off + i) / 512 = 0 := by omega
  rw [Buf.byte, Buf.byte, dif_pos hlt, dif_pos hlt, torn, if_pos]
  intro s hs
  have hs' : s ≤ (off + i) / 512 := hs
  rwa [show s = 0 by omega]

theorem parse_torn {ok : ℕ → Bool} (h : ok 0) (buf old : Block) :
    journalFormat.parse (torn ok buf old) = journalFormat.parse buf := by
  have hmagic : headerMagic (torn ok buf old) = headerMagic buf := get_torn h buf old (by omega)
  have hcount : headerCount (torn ok buf old) = headerCount buf := get_torn h buf old (by omega)
  have htargets : (range (min (headerCount buf) 16)).map (headerTarget (torn ok buf old)) =
      (range (min (headerCount buf) 16)).map (headerTarget buf) := by
    refine map_congr_left fun i hi => get_torn h buf old ?_
    have := mem_range.mp hi
    omega
  simp only [journalFormat, hmagic, hcount, htargets]

def InJournal (sb : Superblock) (b : ℕ) : Prop :=
  sb.journalBlock ≤ b ∧ b < sb.journalBlock + sb.journalSize

/-- The next mount succeeds and shows `post` outside the journal. -/
def Shows (sb : Superblock) (d post : ℕ → Block) : Prop :=
  ∀ jbuf auditTotal, ∃ vol root, mount d jbuf auditTotal = some (vol, root) ∧
    ∀ b, ¬ InJournal sb b → vol.disk b = post b

/-- A transaction staged on a mounted volume, with the journal `exfs_format` lays out or with
none. -/
structure CommitState (vol : Volume) : Prop where
  active : vol.jtxnActive = true
  nodup : (vol.jtxn.map Prod.fst).Nodup
  length_le : vol.jtxn.length ≤ 16
  home : ∀ p ∈ vol.jtxn, p.1 ≠ 0 ∧ ¬ InJournal vol.sb p.1
  fits : ∀ p ∈ vol.jtxn, p.1 < 2 ^ 64
  magic : (Superblock.load (vol.disk 0)).magic = exfsMagic
  journalBlock : (Superblock.load (vol.disk 0)).journalBlock = vol.sb.journalBlock
  journalSize : (Superblock.load (vol.disk 0)).journalSize = vol.sb.journalSize
  size : vol.sb.journalSize = 0 ∨ vol.sb.journalSize = 17
  journal_pos : 0 < vol.sb.journalBlock

def HeaderClear (vol : Volume) : Prop :=
  vol.sb.journalSize ≠ 0 → headerMagic (vol.disk vol.sb.journalBlock) ≠ journalMagic

/-- The commit gets as far as the first sector of its own header. -/
structure HeaderLands (vol : Volume) (ok : ℕ → ℕ → Bool) : Prop where
  journal : vol.sb.journalSize ≠ 0
  staged : vol.jtxnData = true ∧ vol.jtxn ≠ []
  slots : ∀ k, k < vol.jtxn.length → AllDone (ok k)
  first : ok vol.jtxn.length 0 = true

/-- The commit returns and the next mount shows the staged contents when it returned true, the
contents before the transaction when it returned false. -/
def CommitAtomic (vol : Volume) (ok : ℕ → ℕ → Bool) : Prop :=
  Shows vol.sb (vol.tryCommit ok).1.disk
    (if (vol.tryCommit ok).2 then applyWrites vol.disk vol.jtxn else vol.disk)

/-- The failures that do no harm. Without a journal: when a home write fails, no sector that
landed differs. With one: a header write whose first sector lands succeeds, or the staged contents
are on the device already; and a home write whose journal copy is cleared leaves no sector out. -/
def CommitFine (vol : Volume) (ok : ℕ → ℕ → Bool) : Prop :=
  let t := vol.jtxn
  let n := t.length
  if vol.sb.journalSize = 0 ∨ vol.jtxnData = false then
    (∃ k, k < n ∧ ¬ AllDone (ok k)) →
      ∀ k (h : k < n), torn (ok k) t[k].2 (vol.disk t[k].1) = vol.disk t[k].1
  else
    (∀ k, k < n → AllDone (ok k)) → ok n 0 = true →
      (¬ AllDone (ok n) → ∀ p ∈ t, vol.disk p.1 = p.2) ∧
      (AllDone (ok n) → ok (2 * n + 1) 0 = true →
        ∀ k (h : k < n), torn (ok (n + 1 + k)) t[k].2 (vol.disk t[k].1) = t[k].2)

section
variable {vol : Volume} {ok : ℕ → ℕ → Bool} {d post : ℕ → Block}

section
variable (h : CommitState vol)
include h

theorem CommitState.shows_iff (h0 : d 0 = vol.disk 0) :
    Shows vol.sb d post ↔ ∀ b, ¬ InJournal vol.sb b →
      (if vol.sb.journalSize = 0 then d else recover journalFormat vol.sb.journalBlock d) b =
        post b := by
  have hmount : ∀ jbuf auditTotal, ∃ vol' root, mount d jbuf auditTotal = some (vol', root) ∧
      vol'.disk =
        if vol.sb.journalSize = 0 then d else recover journalFormat vol.sb.journalBlock d := by
    intro jbuf auditTotal
    unfold mount
    rw [h0, if_neg (not_not.mpr h.magic)]
    refine ⟨_, _, rfl, ?_⟩
    rw [← h.journalSize, ← h.journalBlock]
    split_ifs with hs
    · rw [journalReplay, if_pos hs]
    have hsize := h.size.resolve_left fun h' => hs (h.journalSize.trans h')
    refine Volume.Wrote.disk (wrote_journalReplay ?_)
    exact h.journalSize.trans hsize
  constructor
  · intro hshows b hb
    obtain ⟨v, root, hv, hpost⟩ := hshows true 0
    obtain ⟨v', root', hv', hdisk⟩ := hmount true 0
    rw [hv, Option.some.injEq, Prod.mk.injEq] at hv'
    rw [← hdisk, ← hv'.1, hpost b hb]
  · intro hpost jbuf auditTotal
    obtain ⟨v, root, hv, hdisk⟩ := hmount jbuf auditTotal
    exact ⟨v, root, hv, fun b hb => by rw [hdisk, hpost b hb]⟩

theorem CommitState.shows_of_clear (h0 : d 0 = vol.disk 0)
    (hc : vol.sb.journalSize ≠ 0 → journalFormat.parse (d vol.sb.journalBlock) = none) :
    Shows vol.sb d post ↔ ∀ b, ¬ InJournal vol.sb b → d b = post b := by
  rw [h.shows_iff h0]
  split_ifs with hs
  · exact Iff.rfl
  have hsettled : Settled journalFormat vol.sb.journalBlock d d := ⟨hc hs, fun _ _ => rfl⟩
  rw [hsettled.recover]

theorem CommitState.ne_zero : ∀ p ∈ vol.jtxn, p.1 ≠ 0 :=
  fun p hp => (h.home p hp).1

theorem CommitState.ne_journal {b : ℕ} (hb : InJournal vol.sb b) : ∀ p ∈ vol.jtxn, p.1 ≠ b :=
  fun p hp he => (h.home p hp).2 (he ▸ hb)

theorem tryAll_agree_iff (ok : ℕ → ℕ → Bool) (i : ℕ) {v : Volume}
    (hv : ∀ b, ¬ InJournal vol.sb b → v.disk b = vol.disk b)
    (hpost : ∀ b, ¬ InJournal vol.sb b → (∀ p ∈ vol.jtxn, p.1 ≠ b) → post b = vol.disk b) :
    (∀ b, ¬ InJournal vol.sb b → (tryAll ok i vol.jtxn v).1.disk b = post b) ↔
      ∀ k (hk : k < vol.jtxn.length), torn (ok (i + k)) vol.jtxn[k].2 (vol.disk vol.jtxn[k].1) =
        post vol.jtxn[k].1 := by
  have hhome : ∀ k (hk : k < vol.jtxn.length), ¬ InJournal vol.sb vol.jtxn[k].1 :=
    fun k hk => (h.home _ (getElem_mem hk)).2
  constructor
  · intro hall k hk
    rw [← hall _ (hhome k hk), tryAll_target ok i h.nodup v hk, hv _ (hhome k hk)]
  intro htargets b hb
  by_cases hex : ∃ p ∈ vol.jtxn, p.1 = b
  · obtain ⟨p, hp, rfl⟩ := hex
    obtain ⟨k, hk, rfl⟩ := mem_iff_getElem.mp hp
    rw [tryAll_target ok i h.nodup v hk, hv _ hb, htargets k hk]
  · push Not at hex
    rw [tryAll_frame ok i _ _ hex, hv b hb, hpost b hb hex]

end

private theorem committing_disk (vol : Volume) (b : ℕ) (_ : ¬ InJournal vol.sb b) :
    ({ vol with jtxnActive := false } : Volume).disk b = vol.disk b := rfl

theorem applyWrites_frame (b : ℕ) (_ : ¬ InJournal vol.sb b) (h : ∀ p ∈ vol.jtxn, p.1 ≠ b) :
    applyWrites vol.disk vol.jtxn b = vol.disk b := applyWrites_of_forall_ne h

theorem CommitState.applyWrites_target (h : CommitState vol) {k : ℕ} (hk : k < vol.jtxn.length) :
    applyWrites vol.disk vol.jtxn vol.jtxn[k].1 = vol.jtxn[k].2 :=
  applyWrites_of_mem h.nodup (getElem_mem hk)

theorem CommitState.inJournal (h : CommitState vol) (hs : vol.sb.journalSize ≠ 0) {b : ℕ} :
    InJournal vol.sb b ↔ InLog journalFormat vol.sb.journalBlock b := by
  have hsize := h.size.resolve_left hs
  have hcap : journalFormat.cap = 16 := rfl
  unfold InJournal InLog
  omega

theorem CommitState.direct_iff (h : CommitState vol) (hc : HeaderClear vol)
    (hdir : vol.sb.journalSize = 0 ∨ vol.jtxnData = false) :
    CommitAtomic vol ok ↔ CommitFine vol ok := by
  have hcommit : (vol.tryCommit ok).1.disk =
        (tryAll ok 0 vol.jtxn { vol with jtxnActive := false }).1.disk ∧
      (vol.tryCommit ok).2 = (tryAll ok 0 vol.jtxn { vol with jtxnActive := false }).2 := by
    have hbranch : vol.sb.journalSize = 0 ∨ (!vol.jtxnData) ∨
        vol.sb.journalSize - 1 < vol.jtxn.length := by
      rcases hdir with hs | hd
      · exact .inl hs
      · exact .inr (.inl (by rw [hd]; rfl))
    simp only [tryCommit, h.active, Bool.not_true, Bool.false_eq_true, if_false, if_pos hbranch]
    split_ifs with hnil
    · rw [length_eq_zero_iff.mp hnil]
      exact ⟨rfl, rfl⟩
    · exact ⟨rfl, rfl⟩
  obtain ⟨hdisk, hsnd⟩ := hcommit
  have h0 : (vol.tryCommit ok).1.disk 0 = vol.disk 0 := by
    rw [hdisk, tryAll_frame ok 0 _ _ h.ne_zero]
  have hclear : vol.sb.journalSize ≠ 0 →
      journalFormat.parse ((vol.tryCommit ok).1.disk vol.sb.journalBlock) = none := by
    intro hs
    have hin : InJournal vol.sb vol.sb.journalBlock := ⟨le_rfl, by omega⟩
    rw [hdisk, tryAll_frame ok 0 _ _ (h.ne_journal hin)]
    exact parse_eq_none (hc hs)
  rw [CommitAtomic, h.shows_of_clear h0 hclear, CommitFine, if_pos hdir, hdisk, hsnd]
  have hall := tryAll_snd ok 0 vol.jtxn { vol with jtxnActive := false }
  simp only [Nat.zero_add] at hall
  by_cases hdone : ∀ k < vol.jtxn.length, AllDone (ok k)
  · rw [if_pos (hall.mpr hdone), tryAll_agree_iff h ok 0 (committing_disk vol) applyWrites_frame]
    refine iff_of_true (fun k hk => ?_) fun ⟨k, hk, hfail⟩ => absurd (hdone k hk) hfail
    rw [Nat.zero_add, torn_of_ok (hdone k hk), h.applyWrites_target hk]
  rw [if_neg fun hr => hdone (hall.mp hr),
    tryAll_agree_iff h ok 0 (committing_disk vol) fun _ _ _ => rfl]
  push Not at hdone
  simp only [Nat.zero_add, hdone, true_implies]

end

/-! The commit through the journal, one step after the other. -/

namespace Volume
variable (vol : Volume) (ok : ℕ → ℕ → Bool)

def afterSlots : Volume × Bool :=
  trySlots vol.sb.journalBlock ok 0 vol.jtxn { vol with jtxnActive := false }

def afterHeader : Volume × Bool :=
  (vol.afterSlots ok).1.tryWrite vol.sb.journalBlock (journalHeader (vol.jtxn.map Prod.fst))
    (ok vol.jtxn.length)

def afterHome : Volume := (tryAll ok (vol.jtxn.length + 1) vol.jtxn (vol.afterHeader ok).1).1

def afterClear : Volume :=
  ((vol.afterHome ok).tryWrite vol.sb.journalBlock zeroBlock (ok (2 * vol.jtxn.length + 1))).1

end Volume

section
variable {vol : Volume} {ok : ℕ → ℕ → Bool} {d post : ℕ → Block}

section
variable (h : CommitState vol)
include h

theorem CommitState.tryCommit_eq (ok : ℕ → ℕ → Bool)
    (hs : vol.sb.journalSize ≠ 0) (hd : vol.jtxnData) (hne : vol.jtxn ≠ []) :
    ((vol.tryCommit ok).1.disk, (vol.tryCommit ok).2) =
      if (vol.afterSlots ok).2 = false then ((vol.afterSlots ok).1.disk, false)
      else if (vol.afterHeader ok).2 = false then ((vol.afterHeader ok).1.disk, false)
      else ((vol.afterClear ok).disk, true) := by
  have hlen : vol.jtxn.length ≠ 0 := by simpa using hne
  have hbranch : ¬ (vol.sb.journalSize = 0 ∨ vol.jtxnData = false ∨
      vol.sb.journalSize - 1 < vol.jtxn.length) := by
    have := h.length_le
    have := h.size.resolve_left hs
    simp only [hd, Bool.true_eq_false, false_or]
    omega
  cases hslots : (vol.afterSlots ok).2 <;> cases hheader : (vol.afterHeader ok).2 <;>
    simp only [afterSlots, afterHeader] at hslots hheader <;>
    simp only [tryCommit, h.active, Bool.not_true, Bool.not_false, Bool.false_eq_true,
      Bool.true_eq_false, if_false, if_true, hlen, hbranch, hslots, hheader, Bool.not_eq_true',
      afterSlots, afterHeader, afterHome, afterClear]

theorem CommitState.valid (hs : vol.sb.journalSize ≠ 0) :
    Valid journalFormat vol.sb.journalBlock vol.jtxn :=
  ⟨h.length_le, h.nodup, fun p hp hin => (h.home p hp).2 ((h.inJournal hs).mpr hin), h.fits⟩

theorem CommitState.shows_of_committed (h0 : d 0 = vol.disk 0) (hs : vol.sb.journalSize ≠ 0)
    (hcom : Committed journalFormat vol.sb.journalBlock vol.jtxn vol.disk d) : Shows vol.sb d post ↔
      ∀ b, ¬ InJournal vol.sb b → applyWrites vol.disk vol.jtxn b = post b := by
  have hagree := (hcom.recover (h.valid hs)).agree
  rw [h.shows_iff h0, if_neg hs]
  refine forall₂_congr fun b hb => ?_
  rw [hagree b fun hin => hb ((h.inJournal hs).mpr hin)]

theorem CommitState.afterSlots_frame (hs : vol.sb.journalSize ≠ 0)
    (ok : ℕ → ℕ → Bool) {b : ℕ} (hb : ¬ InJournal vol.sb b ∨ b = vol.sb.journalBlock) :
    (vol.afterSlots ok).1.disk b = vol.disk b := by
  have hsize := h.size.resolve_left hs
  have hlen := h.length_le
  unfold InJournal at hb
  exact trySlots_frame _ _ _ _ _ (by omega)

theorem CommitState.afterHeader_frame (hs : vol.sb.journalSize ≠ 0)
    (ok : ℕ → ℕ → Bool) {b : ℕ} (hb : ¬ InJournal vol.sb b) :
    (vol.afterHeader ok).1.disk b = vol.disk b := by
  have hne : b ≠ vol.sb.journalBlock := fun he => hb ⟨he ▸ le_rfl, by omega⟩
  rw [afterHeader, tryWrite_disk, update_of_ne hne, h.afterSlots_frame hs ok (.inl hb)]

theorem CommitState.not_inJournal_zero : ¬ InJournal vol.sb 0 :=
  fun hin => absurd hin.1 (by have := h.journal_pos; omega)

section
variable (hs : vol.sb.journalSize ≠ 0)
include hs

theorem CommitState.committed
    (hslots : (vol.afterSlots ok).2) (hfirst : ok vol.jtxn.length 0) :
    Committed journalFormat vol.sb.journalBlock vol.jtxn vol.disk (vol.afterHeader ok).1.disk := by
  have hlen := h.length_le
  refine ⟨?_, fun i hi => ?_, fun x hx hne => ?_⟩
  · rw [afterHeader, tryWrite_disk, update_self, parse_torn hfirst]
    refine journalFormat.parse_header _ ((length_map _).trans_le hlen) fun b hb => ?_
    obtain ⟨p, hp, rfl⟩ := mem_map.mp hb
    exact h.fits p hp
  · have hslot := trySlots_slot hslots hi
    rw [Nat.zero_add] at hslot
    rwa [afterHeader, tryWrite_disk, update_of_ne (by omega)]
  · exact h.afterHeader_frame hs ok fun hin => hx ((h.inJournal hs).mp hin)

theorem CommitState.afterHome_committed
    (hslots : (vol.afterSlots ok).2) (hfirst : ok vol.jtxn.length 0) :
    Committed journalFormat vol.sb.journalBlock vol.jtxn vol.disk (vol.afterHome ok).disk := by
  have hcom := h.committed hs hslots hfirst
  have hlen := h.length_le
  have hsize := h.size.resolve_left hs
  have hjournal : ∀ b, InJournal vol.sb b →
      (vol.afterHome ok).disk b = (vol.afterHeader ok).1.disk b :=
    fun b hb => tryAll_frame ok _ _ _ (h.ne_journal hb)
  refine ⟨?_, fun i hi => ?_, fun x hx hne => ?_⟩
  · rw [hjournal _ ⟨le_rfl, by omega⟩, hcom.header]
  · rw [hjournal _ ⟨by omega, by omega⟩, hcom.slots i hi]
  · rw [afterHome, tryAll_frame ok _ _ _ hne, hcom.frame x hx hne]

theorem CommitState.afterHome_zero : (vol.afterHome ok).disk 0 = vol.disk 0 := by
  rw [afterHome, tryAll_frame ok _ _ _ h.ne_zero, h.afterHeader_frame hs ok h.not_inJournal_zero]

end

theorem CommitState.uncommitted (hc : HeaderClear vol)
    (hs : vol.sb.journalSize ≠ 0) : Shows vol.sb (vol.afterSlots ok).1.disk vol.disk := by
  have h0 := h.afterSlots_frame hs ok (.inl h.not_inJournal_zero)
  refine (h.shows_of_clear h0 fun _ => ?_).mpr fun b hb => h.afterSlots_frame hs ok (.inl hb)
  rw [h.afterSlots_frame hs ok (.inr rfl)]
  exact parse_eq_none (hc hs)

theorem CommitState.header_torn (hs : vol.sb.journalSize ≠ 0)
    (hslots : (vol.afterSlots ok).2) (hfirst : ok vol.jtxn.length 0) :
    Shows vol.sb (vol.afterHeader ok).1.disk vol.disk ↔ ∀ p ∈ vol.jtxn, vol.disk p.1 = p.2 := by
  rw [h.shows_of_committed (h.afterHeader_frame hs ok h.not_inJournal_zero) hs
    (h.committed hs hslots hfirst)]
  refine ⟨fun hall p hp => ?_, fun hall b _ => ?_⟩
  · rw [← hall p.1 (h.home p hp).2, applyWrites_of_mem h.nodup hp]
  by_cases hex : ∃ p ∈ vol.jtxn, p.1 = b
  · obtain ⟨p, hp, rfl⟩ := hex
    rw [applyWrites_of_mem h.nodup hp, hall p hp]
  · push Not at hex
    exact applyWrites_of_forall_ne hex

theorem CommitState.finished (hs : vol.sb.journalSize ≠ 0)
    (hslots : (vol.afterSlots ok).2) (hfirst : ok vol.jtxn.length 0) :
    Shows vol.sb (vol.afterClear ok).disk (applyWrites vol.disk vol.jtxn) ↔
      (ok (2 * vol.jtxn.length + 1) 0 → ∀ k (hk : k < vol.jtxn.length),
        torn (ok (vol.jtxn.length + 1 + k)) vol.jtxn[k].2 (vol.disk vol.jtxn[k].1) =
          vol.jtxn[k].2) := by
  have hjb : ∀ b, ¬ InJournal vol.sb b → b ≠ vol.sb.journalBlock :=
    fun b hb he => hb ⟨he ▸ le_rfl, by omega⟩
  have h0 : (vol.afterClear ok).disk 0 = vol.disk 0 := by
    rw [afterClear, tryWrite_disk, update_of_ne (hjb 0 h.not_inJournal_zero), h.afterHome_zero hs]
  cases hclear : ok (2 * vol.jtxn.length + 1) 0 with
  | false =>
    -- the header is still there, so the next mount redoes the transaction
    have hdisk : (vol.afterClear ok).disk = (vol.afterHome ok).disk := by
      rw [afterClear, tryWrite_disk, torn_of_fail hclear, update_eq_self]
    rw [hdisk] at h0 ⊢
    rw [h.shows_of_committed h0 hs (h.afterHome_committed hs hslots hfirst)]
    exact iff_of_true (fun _ _ => rfl) fun hf => absurd hf Bool.false_ne_true
  | true =>
    have hnone : journalFormat.parse ((vol.afterClear ok).disk vol.sb.journalBlock) = none := by
      rw [afterClear, tryWrite_disk, update_self, parse_torn hclear]
      exact journalFormat.parse_clear
    have hdisk : ∀ b, ¬ InJournal vol.sb b →
        (vol.afterClear ok).disk b = (vol.afterHome ok).disk b := fun b hb => by
      rw [afterClear, tryWrite_disk, update_of_ne (hjb b hb)]
    have hhome := tryAll_agree_iff h ok (vol.jtxn.length + 1)
      (fun b hb => h.afterHeader_frame hs ok hb) applyWrites_frame
    rw [h.shows_of_clear h0 fun _ => hnone]
    simp only [true_implies]
    rw [forall₂_congr fun b hb => by rw [hdisk b hb]]
    refine hhome.trans (forall₂_congr fun k hk => ?_)
    rw [h.applyWrites_target hk]

theorem CommitState.journaled_iff (hc : HeaderClear vol ∨ HeaderLands vol ok)
    (hs : vol.sb.journalSize ≠ 0) (hd : vol.jtxnData) :
    CommitAtomic vol ok ↔ CommitFine vol ok := by
  have hfine : ¬ (vol.sb.journalSize = 0 ∨ vol.jtxnData = false) := by simp [hs, hd]
  simp only [CommitFine, if_neg hfine]
  by_cases hnil : vol.jtxn = []
  · have hc := hc.resolve_right fun hl => hl.staged.2 hnil
    have hcommit : vol.tryCommit ok = ({ vol with jtxnActive := false }, true) := by
      simp [tryCommit, h.active, hnil]
    have hclear : vol.sb.journalSize ≠ 0 →
        journalFormat.parse (vol.disk vol.sb.journalBlock) = none := fun hs => parse_eq_none (hc hs)
    refine iff_of_true ?_ fun _ _ => ⟨fun _ p hp => ?_, fun _ _ k hk => ?_⟩
    · rw [CommitAtomic, hcommit, if_pos rfl, h.shows_of_clear rfl hclear, hnil]
      exact fun _ _ => rfl
    · rw [hnil] at hp
      cases hp
    · rw [hnil] at hk
      exact absurd hk (Nat.not_lt_zero k)
  have heq := h.tryCommit_eq ok hs hd hnil
  have hslots : (vol.afterSlots ok).2 ↔ ∀ k < vol.jtxn.length, AllDone (ok k) := by
    have hsnd := trySlots_snd vol.sb.journalBlock ok 0 vol.jtxn
      { vol with jtxnActive := false }
    simp only [Nat.zero_add] at hsnd
    exact hsnd
  have hheader : (vol.afterHeader ok).2 ↔ AllDone (ok vol.jtxn.length) :=
    tryWrite_snd _ _ _ _
  rw [← hslots, ← hheader, CommitAtomic]
  cases hs1 : (vol.afterSlots ok).2 with
  | false =>
    have hc := hc.resolve_right fun hl =>
      Bool.false_ne_true (hs1.symm.trans (hslots.mpr hl.slots))
    rw [if_pos hs1, Prod.mk.injEq] at heq
    rw [heq.1, heq.2]
    exact iff_of_true (h.uncommitted hc hs) fun hf => absurd hf Bool.false_ne_true
  | true =>
    rw [if_neg (by rw [hs1]; exact Bool.false_ne_true.symm)] at heq
    cases hs2 : (vol.afterHeader ok).2 with
    | false =>
      rw [if_pos hs2, Prod.mk.injEq] at heq
      rw [heq.1, heq.2]
      cases hfirst : ok vol.jtxn.length 0 with
      | false =>
        have hc := hc.resolve_right fun hl => Bool.false_ne_true (hfirst.symm.trans hl.first)
        have hdisk : (vol.afterHeader ok).1.disk = (vol.afterSlots ok).1.disk := by
          rw [afterHeader, tryWrite_disk, torn_of_fail hfirst, update_eq_self]
        rw [hdisk]
        exact iff_of_true (h.uncommitted hc hs) fun _ hf => absurd hf Bool.false_ne_true
      | true =>
        rw [if_neg Bool.false_ne_true, h.header_torn hs hs1 hfirst]
        simp
    | true =>
      rw [if_neg (by rw [hs2]; exact Bool.false_ne_true.symm), Prod.mk.injEq] at heq
      have hfirst : ok vol.jtxn.length 0 := hheader.mp hs2 0 (by decide)
      rw [heq.1, heq.2, if_pos rfl, h.finished hs hs1 hfirst]
      simp [hfirst]

end

/-- A commit with a clear journal header, or one that replaces an old header by its own, is
atomic over every pattern of failing sector writes exactly when the failures are among those that
do no harm. -/
theorem commitAtomic_iff (h : CommitState vol) (ok : ℕ → ℕ → Bool)
    (hc : HeaderClear vol ∨ HeaderLands vol ok) : CommitAtomic vol ok ↔ CommitFine vol ok := by
  by_cases hdir : vol.sb.journalSize = 0 ∨ vol.jtxnData = false
  · refine h.direct_iff (hc.resolve_right fun hl => ?_) hdir
    rcases hdir with hs | hd
    · exact hl.journal hs
    · exact Bool.false_ne_true (hd.symm.trans hl.staged.1)
  · have hd : vol.jtxnData = true := by
      rw [← Bool.not_eq_false]
      exact fun hf => hdir (.inr hf)
    exact h.journaled_iff hc (fun hs => hdir (.inl hs)) hd

end

/-- The device of `stagedSample` with its superblock in place and the given journal header. -/
def commitSample (header : Block) : Volume :=
  { stagedSample with disk := fun b =>
      if b = 0 then stagedSample.sb.block else if b = 10 then header else zeroBlock }

theorem commitSample_state : CommitState (commitSample zeroBlock) := by
  have hload : Superblock.load ((commitSample zeroBlock).disk 0) = stagedSample.sb :=
    Superblock.load_block _ ⟨by decide, by decide, by decide⟩
  have htarget : ∀ p ∈ (commitSample zeroBlock).jtxn, p.1 = 5 := by
    intro p hp
    rw [mem_singleton.mp hp]
  refine ⟨rfl, by decide, by decide, fun p hp => ?_, fun p hp => ?_, ?_, ?_, ?_, .inr rfl,
    by decide⟩
  · rw [htarget p hp]
    exact ⟨by decide, fun h => absurd h.1 (by decide)⟩
  · rw [htarget p hp]
    decide
  · rw [hload]
    rfl
  · rw [hload]
    rfl
  · rw [hload]
    rfl

/-- Block write `k` of the commit fails at its sector `s`. -/
def failAt (k s : ℕ) : ℕ → ℕ → Bool := fun k' s' => !(k' == k && s' == s)

/-- The home write is torn and the header cannot be cleared. -/
def lostHome : ℕ → ℕ → Bool := fun k s => failAt 2 4 k s && failAt 3 0 k s

theorem lostHome_atomic : CommitAtomic (commitSample zeroBlock) lostHome := by
  refine (commitAtomic_iff commitSample_state lostHome (.inl fun _ => by decide)).mpr ?_
  exact fun _ _ => ⟨fun h => absurd (by decide) h, fun _ h => absurd h (by decide)⟩

def mountedByte (vol : Volume) (ok : ℕ → ℕ → Bool) (b : ℕ) (i : Fin 4096) : Option UInt8 :=
  (mount (vol.tryCommit ok).1.disk true 0).map fun r => r.1.disk b i

theorem CommitAtomic.mountedByte {vol : Volume} {ok : ℕ → ℕ → Bool} (h : CommitAtomic vol ok)
    {b : ℕ} (hb : ¬ InJournal vol.sb b) (i : Fin 4096) : Exfs.mountedByte vol ok b i =
      some ((if (vol.tryCommit ok).2 then applyWrites vol.disk vol.jtxn else vol.disk) b i) := by
  obtain ⟨v, root, hv, hpost⟩ := h true 0
  rw [Exfs.mountedByte, hv, Option.map_some, hpost b hb]

/-- The header fails after its first sector: false, and the mount shows the staged block. A home
write fails after its first sector: true, and the mount shows a torn block. A slot fails behind
the header of an earlier transaction: false, and the mount shows the torn slot. -/
theorem commit_not_atomic : ¬ CommitAtomic (commitSample zeroBlock) (failAt 1 1) ∧
      ¬ CommitAtomic (commitSample zeroBlock) (failAt 2 1) ∧
      ¬ CommitAtomic (commitSample (journalHeader [5])) (failAt 0 1) := by
  have hb : ∀ header, ¬ InJournal (commitSample header).sb 5 :=
    fun _ h => by have h10 : 10 ≤ 5 := h.1; omega
  refine ⟨fun h => ?_, fun h => ?_, fun h => ?_⟩
  · have hbyte := h.mountedByte (hb _) 0
    revert hbyte
    decide
  · have hbyte := h.mountedByte (hb _) 4095
    revert hbyte
    decide
  · have hbyte := h.mountedByte (hb _) 0
    revert hbyte
    decide

end Exploidus.Exfs
