import Exploidus.Exfs.Sectors

/-! Block I/O through the cache against block I/O without it, over whole sequences of calls. -/
namespace Exploidus.Exfs
open ByteLayout SlotCache Function

/-- A call of the block I/O layer; a write comes with the sector writes that succeed. -/
inductive BlockCall
  | read (b : ℕ)
  | write (b : ℕ) (buf : Block) (ok : ℕ → Bool)

inductive BlockReply
  | data (buf : Block)
  | wrote (done : Bool)

def BlockCall.block : BlockCall → ℕ
  | .read b => b
  | .write b _ _ => b

namespace Drive

def call (v : Drive) : BlockCall → Drive × BlockReply
  | .read b => ((v.readBlock b).1, .data (v.readBlock b).2)
  | .write b buf ok => ((v.writeBlock b buf ok).1, .wrote (v.writeBlock b buf ok).2)

def calls (v : Drive) (cs : List BlockCall) : Drive := cs.foldl (fun v c => (v.call c).1) v

def replies : Drive → List BlockCall → List BlockReply
  | _, [] => []
  | v, c :: cs => (v.call c).2 :: replies (v.call c).1 cs

/-- The drive as it is when `vol->cache == NULL`. -/
def uncached (v : Drive) : Drive := { v with cache := none }

def Cached (v : Drive) (b : ℕ) : Prop := ∃ c, v.cache = some c ∧ c.Cached b

/-- A read of any block gives what the device holds, and no block has two cache entries. -/
structure Transparent (total : ℕ) (v : Drive) : Prop where
  reads : ∀ b, b < total → (v.readBlock b).2 = v.deviceBlock b
  unique : ∀ c, v.cache = some c → ∀ i j b, c.Holds i b → c.Holds j b → i = j

/-- A write that fails after some sectors have changed is to a block that is not cached. -/
def Clean (v : Drive) : BlockCall → Prop
  | .read _ => True
  | .write b buf ok => (∃ s, s < 8 ∧ ok s = false) → v.Cached b →
      ∀ s, s < 8 → (∀ t, t ≤ s → ok t = true) → sectorOf buf s = sectorOf (v.deviceBlock b) s

/-- Every call of the sequence is clean in the state it is made in. -/
def CleanRun : Drive → List BlockCall → Prop
  | _, [] => True
  | v, c :: cs => v.Clean c ∧ CleanRun (v.call c).1 cs

def Coherent (total : ℕ) (v : Drive) : Prop :=
  ∀ c, v.cache = some c → c.Coherent v.deviceBlock ∧ ∀ b, c.Cached b → b < total

variable {total : ℕ} {v : Drive} {b : ℕ} {buf : Block} {ok : ℕ → Bool}

theorem Coherent.reads (h : v.Coherent total) (b : ℕ) : (v.readBlock b).2 = v.deviceBlock b := by
  unfold readBlock
  split
  · rfl
  rename_i c hc
  split
  · rename_i data hd
    exact ((h c hc).1.lookup_eq hd).symm
  · rfl

theorem Coherent.transparent (h : v.Coherent total) : v.Transparent total :=
  ⟨fun b _ => h.reads b, fun c hc => (h c hc).1.unique⟩

theorem Coherent.readBlock (h : v.Coherent total) (hb : b < total) :
    (v.readBlock b).1.Coherent total := by
  intro c' hc'
  rw [deviceBlock_readBlock]
  unfold Drive.readBlock at hc'
  split at hc'
  · rename_i hc
    rw [hc] at hc'
    cases hc'
  rename_i c hc
  split at hc'
  · exact h c' hc'
  rename_i hd
  cases hc'
  have hk := Cache.lookup_eq_none.mp hd
  refine ⟨(h c hc).1.insert rfl hk, fun k hk' => ?_⟩
  rcases Cache.cached_put (i := c.next) hk' with rfl | hold
  · exact hb
  · exact (h c hc).2 k hold

theorem torn_eq_iff (old : Block) : torn ok buf old = old ↔
    ∀ s < 8, (∀ t ≤ s, ok t) → sectorOf buf s = sectorOf old s := by
  constructor
  · intro h s hs hok
    funext i
    have hi := i.isLt
    have hlt : s * 512 + i.val < 4096 := by omega
    have hdiv : (s * 512 + i.val) / 512 = s := by omega
    have hbyte := congrFun h ⟨s * 512 + i.val, hlt⟩
    rw [torn, if_pos (by simpa only [hdiv] using hok)] at hbyte
    simp only [sectorOf, Buf.byte, hlt, dif_pos, hbyte]
  intro h
  funext i
  have hi := i.isLt
  rw [torn]
  split_ifs with hok
  · have hs := congrFun (h (i.val / 512) (by omega) hok) ⟨i.val % 512, Nat.mod_lt _ (by decide)⟩
    have hsplit : i.val / 512 * 512 + i.val % 512 = i.val := by omega
    simpa only [sectorOf, hsplit, Buf.byte, hi, dif_pos, Fin.eta] using hs
  · rfl

section
variable (htotal : total < 2 ^ 29)
include htotal

theorem Coherent.device_writeBlock (hb : b < total)
    {c : Cache 63 ℕ Block} (hc : ∀ k, c.Cached k → k < total) :
    c.Coherent (v.writeBlock b buf ok).1.deviceBlock ↔
      c.Coherent (update v.deviceBlock b (torn ok buf (v.deviceBlock b))) := by
  have heq : ∀ k, c.Cached k → (v.writeBlock b buf ok).1.deviceBlock k =
      update v.deviceBlock b (torn ok buf (v.deviceBlock b)) k := fun k hk =>
    deviceBlock_writeBlock v buf ok (hb.trans htotal) ((hc k hk).trans htotal)
  exact ⟨fun h => h.congr heq, fun h => h.congr fun k hk => (heq k hk).symm⟩

theorem Coherent.writeBlock_iff (h : v.Coherent total) (hb : b < total) :
    (v.writeBlock b buf ok).1.Coherent total ↔ v.Clean (.write b buf ok) := by
  by_cases hdone : ∀ s < 8, ok s
  · have hcache := writeBlock_cache v b buf ok
    rw [if_pos (writeBlock_snd.mpr hdone)] at hcache
    have hclean : v.Clean (.write b buf ok) := fun ⟨s, hs, hf⟩ =>
      absurd (hf.symm.trans (hdone s hs)) Bool.false_ne_true
    refine iff_of_true (fun c' hc' => ?_) hclean
    rcases hc : v.cache with _ | c <;> rw [hcache, hc] at hc' <;> cases hc'
    have hkeys : ∀ k, (c.store b buf).Cached k → k < total := fun k hk => by
      rcases Cache.cached_store hk with rfl | hold
      · exact hb
      · exact (h c hc).2 k hold
    rw [device_writeBlock htotal hb hkeys, torn_of_ok hdone]
    exact ⟨(h c hc).1.store buf, hkeys⟩
  · have hcache := writeBlock_cache v b buf ok
    rw [if_neg fun h => hdone (writeBlock_snd.mp h)] at hcache
    have hfail : ∃ s, s < 8 ∧ ok s = false := by simpa using hdone
    constructor
    · rintro h' - ⟨c, hc, hk⟩
      have hdev := (h' c (hcache.trans hc)).1
      rw [device_writeBlock htotal hb (h c hc).2, (h c hc).1.update_iff] at hdev
      exact (torn_eq_iff _).mp (hdev hk).symm
    · intro hclean c hc
      rw [hcache] at hc
      rw [device_writeBlock htotal hb (h c hc).2, (h c hc).1.update_iff]
      exact ⟨fun hk => ((torn_eq_iff _).mpr (hclean hfail ⟨c, hc, hk⟩)).symm, (h c hc).2⟩

theorem Coherent.call_iff (h : v.Coherent total) {c : BlockCall}
    (hc : c.block < total) : (v.call c).1.Transparent total ↔ v.Clean c := by
  cases c with
  | read b => exact iff_of_true (h.readBlock hc).transparent trivial
  | write b buf ok =>
    refine ⟨fun ht hfail hk => ?_, fun hclean => ?_⟩
    · obtain ⟨k, hkc, hkb⟩ := hk
      have hcache : (v.writeBlock b buf ok).1.cache = v.cache := by
        rw [writeBlock_cache, if_neg]
        obtain ⟨s, hs, hf⟩ := hfail
        exact fun hd => Bool.false_ne_true (hf.symm.trans (writeBlock_snd.mp hd s hs))
      -- the cached copy is the old content of the block
      have hread : ((v.writeBlock b buf ok).1.readBlock b).2 = v.deviceBlock b := by
        rcases hl : k.lookup b with _ | data
        · exact absurd hkb (Cache.lookup_eq_none.mp hl)
        unfold Drive.readBlock
        rw [hcache, hkc]
        simp only [hl]
        exact ((h k hkc).1.lookup_eq hl).symm
      have hdev := deviceBlock_writeBlock v buf ok (hc.trans htotal)
        (hc.trans htotal)
      rw [update_self] at hdev
      exact (torn_eq_iff _).mp (hdev.symm.trans ((ht.reads b hc).symm.trans hread))
    · exact ((h.writeBlock_iff htotal hc).mpr hclean).transparent

theorem Coherent.call (h : v.Coherent total) {c : BlockCall}
    (hc : c.block < total) (hclean : v.Clean c) : (v.call c).1.Coherent total := by
  cases c with
  | read b => exact h.readBlock hc
  | write b buf ok => exact (h.writeBlock_iff htotal hc).mpr hclean

theorem Coherent.calls_iff (cs : List BlockCall)
    (hcs : ∀ c ∈ cs, c.block < total) (h : v.Coherent total) :
    (∀ k ≤ cs.length, (v.calls (cs.take k)).Transparent total) ↔ v.CleanRun cs := by
  induction cs generalizing v with
  | nil => exact iff_of_true (fun k hk => by simpa [calls] using h.transparent) trivial
  | cons c cs ih =>
    have hc := hcs c List.mem_cons_self
    have hrest := fun x hx => hcs x (List.mem_cons_of_mem c hx)
    refine ⟨fun hall => ?_, fun ⟨hclean, hrun⟩ k hk => ?_⟩
    · have hclean : v.Clean c := (h.call_iff htotal hc).mp (hall 1 (by simp))
      refine ⟨hclean, (ih hrest (h.call htotal hc hclean)).mp fun k hk => ?_⟩
      exact hall (k + 1) (by simpa using hk)
    cases k with
    | zero => exact h.transparent
    | succ k =>
      exact (ih hrest (h.call htotal hc hclean)).mpr hrun k (by simpa using hk)

end

theorem writeSectors_uncached (count s : ℕ) (v : Drive) : writeSectors b buf ok count s v.uncached =
      ((writeSectors b buf ok count s v).1.uncached, (writeSectors b buf ok count s v).2) := by
  induction count generalizing s v with
  | zero => rfl
  | succ count ih =>
    rw [writeSectors, writeSectors]
    split_ifs
    · exact ih (s + 1) { v with sectors := update v.sectors (v.lba b s) (sectorOf buf s) }
    · rfl

theorem Coherent.call_uncached (h : v.Coherent total) (c : BlockCall) :
    v.uncached.call c = ((v.call c).1.uncached, (v.call c).2) := by
  cases c with
  | read b =>
    have hstate : (v.readBlock b).1.uncached = v.uncached := by
      unfold Drive.readBlock
      split
      · rfl
      · split <;> rfl
    simp only [Drive.call, h.reads b, hstate]
    rfl
  | write b buf ok =>
    simp only [Drive.call, writeBlock, writeSectors_uncached]
    rcases writeSectors b buf ok 8 0 v with ⟨v', _ | _⟩ <;> rfl

theorem Coherent.replies_uncached (htotal : total < 2 ^ 29) (cs : List BlockCall)
    (hcs : ∀ c ∈ cs, c.block < total) (h : v.Coherent total) (hrun : v.CleanRun cs) :
    v.replies cs = v.uncached.replies cs := by
  induction cs generalizing v with
  | nil => rfl
  | cons c cs ih =>
    have hcoh := h.call htotal (hcs c List.mem_cons_self) hrun.1
    rw [replies, replies, h.call_uncached c,
      ih (fun x hx => hcs x (List.mem_cons_of_mem c hx)) hcoh hrun.2]

/-- The cache right after the mount: allocated and empty, or not allocated. -/
def Fresh (v : Drive) : Prop := v.cache = none ∨ v.cache = some Cache.empty

theorem Fresh.coherent (h : v.Fresh) : v.Coherent total := by
  intro c hc
  rcases h with hn | he
  · rw [hn] at hc
    cases hc
  rw [he] at hc
  cases hc
  exact ⟨Cache.coherent_empty _, fun b ⟨i, w, hw⟩ => by cases hw⟩

/-- Over every sequence of block reads and writes of a volume of fewer than 2 ^ 29 blocks, the
cache is transparent in every state exactly when no write fails with changed sectors behind a
cached block; the replies are then those of the driver without a cache. -/
theorem cache_transparent_iff (htotal : total < 2 ^ 29) (hv : v.Fresh) (cs : List BlockCall)
    (hcs : ∀ c ∈ cs, c.block < total) :
    ((∀ k, k ≤ cs.length → (v.calls (cs.take k)).Transparent total) ↔ v.CleanRun cs) ∧
      (v.CleanRun cs → v.replies cs = v.uncached.replies cs) :=
  ⟨hv.coherent.calls_iff htotal cs hcs, hv.coherent.replies_uncached htotal cs hcs⟩

def zeroDrive : Drive := ⟨2048, fun _ => Buf.zero, some Cache.empty⟩

def onesBlock : Block := fun _ => 1

/-- A block is read, and written again by calls of which the first succeeds and the second fails
at its first sector. -/
def sampleCalls : List BlockCall :=
  [.read 7, .write 7 onesBlock fun _ => true, .write 7 zeroBlock fun s => 0 < s]

theorem sampleCalls_transparent :
    zeroDrive.replies sampleCalls = zeroDrive.uncached.replies sampleCalls := by
  have hlt : 1024 < 2 ^ 29 := by decide
  refine (cache_transparent_iff hlt (.inr rfl) sampleCalls (by decide)).2 ?_
  refine And.intro trivial (And.intro ?_ (And.intro ?_ trivial))
  · rintro ⟨s, -, hs⟩
    cases hs
  · intro _ _ s _ hok
    exact absurd (hok 0 (Nat.zero_le s)) (by decide)

/-- The second write to a cached block fails after its first sector. -/
def tornCalls : List BlockCall := [.read 7, .write 7 onesBlock fun s => s == 0]

theorem tornCalls_stale : ¬ (zeroDrive.calls tornCalls).Transparent 1024 := by
  intro h
  have hbyte := congrFun (h.reads 7 (by decide)) 0
  revert hbyte
  decide

end Drive

end Exploidus.Exfs
