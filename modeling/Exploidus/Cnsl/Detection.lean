import Exploidus.Cnsl.Engine

/-! Which addresses the engine blocks, and when: what the rules ask for, against what the engine
does along runs. -/
namespace Exploidus.Cnsl
open RingBuffer Function List IpBuf Engine Kind Nat

/-! The rules. -/

variable {now : ℕ} {buf : IpBuf}

def occurrences (now : ℕ) (l : List Event) (kind : Kind) (window : ℕ) : ℕ :=
  l.countP fun ev => eventInWindow now ev.ts window && decide (ev.kind = kind)

/-- Whether an event in a window has a property of its kind. -/
def seen (now : ℕ) (l : List Event) (window : ℕ) (p : Kind → Bool) : Bool :=
  l.any fun ev => eventInWindow now ev.ts window && p ev.kind

def Rule.Met (now : ℕ) (l : List Event) : Rule → Prop
  | .honeypotSsh =>
    1 ≤ occurrences now l .fwHoneypotPort 180 ∧ 1 ≤ occurrences now l .sshFail 180
  | .credentialSpray =>
    3 ≤ occurrences now l .sshFail 300 ∧ 2 ≤ occurrences now l .dbAuthFail 300
  | .webReconSsh =>
    5 ≤ occurrences now l .webScan 600 + occurrences now l .webExploit 600 ∧
      3 ≤ occurrences now l .sshFail 600
  | .privesc =>
    1 ≤ occurrences now l .sshSuccess 300 ∧
      2 ≤ occurrences now l .sudoFail 300 + occurrences now l .suFail 300
  | .webAuthFlood => 15 ≤ occurrences now l .webAuthFail 120
  | .anomalyScanWindow =>
    -- twenty events, of four kinds and of the three groups of services
    20 ≤ l.countP (fun ev => eventInWindow now ev.ts 1800) ∧
      4 ≤ Kind.all.countP (fun k => seen now l 1800 fun k' => k' = k) ∧
      3 ≤ (range 3).countP fun g => seen now l 1800 fun k => k.group = g

instance (now : ℕ) (l : List Event) (r : Rule) : Decidable (r.Met now l) := by
  cases r <;> unfold Rule.Met <;> infer_instance

theorem popcount_eq (fuel v : ℕ) : popcount fuel v = (range fuel).countP fun k => v.testBit k := by
  induction fuel generalizing v with
  | zero => rfl
  | succ fuel ih =>
    rw [popcount, ih, range_succ_eq_map, countP_cons, countP_map, add_comm]
    congr 1
    · congr 1
      funext k
      simp [testBit_succ]
    · rw [testBit_zero]
      rcases mod_two_eq_zero_or_one v with h | h <;> simp [h]

theorem mask_testBit (bit : Kind → ℕ) (window k : ℕ) : (buf.mask now bit window).testBit k =
      seen now buf.events.stored window fun kind => bit kind = k := by
  have hfold : ∀ (l : List Event) (m : ℕ), (l.foldl (fun m ev =>
      if eventInWindow now ev.ts window then m ||| 1 <<< bit ev.kind else m) m).testBit k =
        (m.testBit k || seen now l window fun kind => bit kind = k) := by
    intro l
    induction l with
    | nil => simp [seen]
    | cons ev l ih =>
      intro m
      rw [foldl_cons, ih]
      simp only [seen, any_cons]
      cases hw : eventInWindow now ev.ts window with
      | false => simp
      | true =>
        simp only [↓reduceIte, testBit_or, one_shiftLeft, testBit_two_pow, Bool.true_and,
          Bool.or_assoc]
  rw [mask, hfold, zero_testBit, Bool.false_or]

theorem popcount_mask {num : Kind → ℕ} {n : ℕ} (hn : n ≤ 16) (hlt : ∀ k, num k < n) :
    popcount16 (buf.mask now num 1800) =
      (range n).countP fun g => seen now buf.events.stored 1800 fun k => num k = g := by
  have hhigh : (((range (16 - n)).map (n + ·)).countP fun g =>
      seen now buf.events.stored 1800 fun k => num k = g) = 0 := by
    rw [countP_eq_zero]
    intro g hg
    obtain ⟨j, -, rfl⟩ := mem_map.mp hg
    have hne : ∀ k, num k ≠ n + j := fun k => by
      have := hlt k
      omega
    simp [seen, hne]
  rw [popcount16, popcount_eq]
  simp only [mask_testBit]
  rw [show 16 = n + (16 - n) by omega, range_add, countP_append, hhigh, add_zero]

theorem popcount_mask_code : popcount16 (buf.mask now code 1800) =
    all.countP fun k => seen now buf.events.stored 1800 fun k' => k' = k := by
  have hinj : ∀ k k' : Kind, (decide (k'.code = k.code)) = decide (k' = k) := by
    intro k k'
    cases k <;> cases k' <;> rfl
  rw [popcount_mask (n := 9) (by decide) fun k => by cases k <;> decide,
    show range 9 = all.map code from rfl, countP_map]
  simp only [comp_def, hinj]

theorem popcount_mask_group : popcount16 (buf.mask now group 1800) =
    (range 3).countP fun g => seen now buf.events.stored 1800 fun k => k.group = g :=
  popcount_mask (by decide) fun k => by cases k <;> decide

theorem meets_iff (r : Rule) : buf.meets now r ↔ r.Met now buf.events.newest := by
  have hperm := buf.events.stored_perm
  have hcount : ∀ kind window, buf.countKind now kind window =
      occurrences now buf.events.newest kind window := fun kind window => hperm.countP_eq _
  have hseen : ∀ window p, seen now buf.events.stored window p =
      seen now buf.events.newest window p := fun window p => hperm.any_eq
  cases r with
  | anomalyScanWindow =>
    simp only [meets, popcount_mask_code, popcount_mask_group, hseen, countWindow, hperm.countP_eq]
    simp [Rule.Met, and_assoc]
  | _ => simp [meets, hcount, Rule.Met]

namespace IpBuf

@[simp] theorem stamp_events (rule : Rule) : (buf.stamp now rule).events = buf.events := rfl

theorem tryRules_same (rules : List Rule) :
    (tryRules now rules buf).1.events = buf.events ∧ (tryRules now rules buf).1.ip = buf.ip := by
  induction rules generalizing buf with
  | nil => exact ⟨rfl, rfl⟩
  | cons rule rules ih =>
    rw [tryRules]
    split
    · exact ih
    split
    · exact ⟨rfl, rfl⟩
    · exact @ih (buf.stamp now rule)

theorem tryRules_sound {rules : List Rule} {r : Rule} (h : (tryRules now rules buf).2 = some r) :
    r.Met now buf.events.newest := by
  induction rules generalizing buf with
  | nil => simp [tryRules] at h
  | cons rule rules ih =>
    rw [tryRules] at h
    split at h
    · exact ih h
    split at h
    · rename_i hmeets
      obtain rfl : rule = r := by simpa using h
      simpa using (meets_iff rule).mp hmeets
    · exact @ih (buf.stamp now rule) h

theorem tryRules_complete {rules : List Rule} {r : Rule} (hr : r ∈ rules) (hnodup : rules.Nodup)
    (hcool : buf.coolingDown now r = false) (hmet : r.Met now buf.events.newest) :
    (tryRules now rules buf).2 ≠ none := by
  induction rules generalizing buf with
  | nil => simp at hr
  | cons rule rules ih =>
    obtain ⟨hnot, hnodup⟩ := nodup_cons.mp hnodup
    rw [tryRules]
    by_cases heq : r = rule
    · subst heq
      have hmeets : (buf.stamp now r).meets now r := (meets_iff r).mpr hmet
      simp [hcool, hmeets]
    have hr' : r ∈ rules := (mem_cons.mp hr).resolve_left heq
    split
    · exact ih hr' hnodup hcool hmet
    split
    · simp
    refine @ih (buf.stamp now rule) hr' hnodup ?_ hmet
    simpa [coolingDown, stamp, update_of_ne heq] using hcool

end IpBuf

/-! The table of addresses. -/

namespace Engine
variable {e : Engine} {ip x : UInt32}

def entry (e : Engine) (ip : UInt32) : IpBuf :=
  (e.table.find? fun buf => decide (buf.ip = ip)).getD (blank ip)

theorem entry_ip (e : Engine) (ip : UInt32) : (e.entry ip).ip = ip := by
  unfold entry
  cases hfind : e.table.find? fun buf => decide (buf.ip = ip) with
  | none => rfl
  | some buf => simpa using find?_some hfind

theorem find?_set {table : List IpBuf} {i : ℕ} {new : IpBuf}
    (h : table.findIdx? (fun buf => decide (buf.ip = ip)) = some i) (hnew : new.ip = ip) :
    (table.set i new).find? (fun buf => decide (buf.ip = x)) =
      if x = ip then some new else table.find? fun buf => decide (buf.ip = x) := by
  induction table generalizing i with
  | nil => simp at h
  | cons buf table ih =>
    by_cases hbuf : buf.ip = ip
    · obtain rfl : i = 0 := by simpa [findIdx?_cons, hbuf] using h.symm
      by_cases hx : x = ip
      · simp [hx, hnew]
      · simp [hx, hnew, hbuf, Ne.symm hx]
    obtain ⟨j, hj, rfl⟩ : ∃ j, table.findIdx? (fun buf => decide (buf.ip = ip)) = some j ∧
        j + 1 = i := by
      simpa [findIdx?_cons, hbuf] using h
    rw [set_cons_succ, find?_cons, ih hj]
    by_cases hx : buf.ip = x
    · have hne : x ≠ ip := hx ▸ hbuf
      simp [hx, hne]
    · simp [hx]

def HasEntry (e : Engine) (ip : UInt32) : Prop :=
  ip ∈ e.table.map IpBuf.ip ∨ e.table.length < cnslMaxIps

theorem findOrCreateBuf_spec (h : e.HasEntry ip) : ∃ table i,
    e.findOrCreateBuf ip = some (table, i) ∧ table.getD i (IpBuf.blank ip) = e.entry ip ∧
      ∀ new : IpBuf, new.ip = ip →
        (∀ x, entry ⟨table.set i new, e.blocks⟩ x = if x = ip then new else e.entry x) ∧
        (table.set i new).map IpBuf.ip = if ip ∈ e.table.map IpBuf.ip then e.table.map IpBuf.ip
          else e.table.map IpBuf.ip ++ [ip] := by
  cases hfind : e.table.findIdx? fun buf => decide (buf.ip = ip) with
  | some i =>
    obtain ⟨hi, hip, -⟩ := findIdx?_eq_some_iff_getElem.mp hfind
    have hip : e.table[i].ip = ip := of_decide_eq_true hip
    have hmem : ip ∈ e.table.map IpBuf.ip := by
      rw [← hip]
      exact mem_map_of_mem (getElem_mem hi)
    refine ⟨e.table, i, by simp [findOrCreateBuf, hfind], ?_, fun new hnew => ⟨fun x => ?_, ?_⟩⟩
    · rw [entry, find?_eq_bind_findIdx?_getElem?, hfind]
      simp [hi]
    · rw [entry, find?_set hfind hnew]
      split <;> rfl
    have hself := set_getElem_self (show i < (e.table.map IpBuf.ip).length by simpa using hi)
    rw [getElem_map, hip] at hself
    rw [if_pos hmem, map_set, hnew, hself]
  | none =>
    have hno : ∀ buf ∈ e.table, buf.ip ≠ ip := by
      simpa using findIdx?_eq_none_iff.mp hfind
    have hmem : ip ∉ e.table.map IpBuf.ip := by simpa using hno
    have hroom := h.resolve_left hmem
    refine ⟨e.table ++ [IpBuf.blank ip], e.table.length, ?_, ?_, fun new hnew => ⟨fun x => ?_, ?_⟩⟩
    · simp [findOrCreateBuf, hfind, not_le.mpr hroom]
    · have hnone : (e.table.find? fun buf => decide (buf.ip = ip)) = none := by
        simpa using hno
      simp [entry, hnone]
    · rw [set_append_right _ _ (le_refl _), Nat.sub_self, set_cons_zero, entry, find?_append]
      by_cases hx : x = ip
      · subst hx
        have hnone : (e.table.find? fun buf => decide (buf.ip = x)) = none := by
          simpa using hno
        simp [hnone, hnew]
      · rw [if_neg hx, entry]
        have hlast : ([new].find? fun buf => decide (buf.ip = x)) = none := by
          simp [hnew, Ne.symm hx]
        rw [hlast, Option.or_none]
    · rw [if_neg hmem, set_append_right _ _ (le_refl _), Nat.sub_self, set_cons_zero]
      simp [hnew]

/-! The table of blocks. -/

theorem isBlocked_iff : e.isBlocked ip ↔ ∃ b ∈ e.blocks, b.active ∧ b.ip = ip := by
  simp [isBlocked, and_comm]

theorem mem_tick {b : Block} (hact : b.active) :
    b ∈ (e.tick now).blocks ↔ b ∈ e.blocks ∧ now < b.unblockAt := by
  simp only [tick, mem_map]
  constructor
  · rintro ⟨b', hb', rfl⟩
    by_cases hover : b'.active ∧ b'.unblockAt ≤ now
    · simp [hover] at hact
    rw [if_neg hover] at hact ⊢
    exact ⟨hb', by simpa [hact] using hover⟩
  · rintro ⟨hb, hlt⟩
    exact ⟨b, hb, if_neg fun h => absurd h.2 (by omega)⟩

/-- An entry of the table of blocks is free, or there is one to be had. -/
def HasBlock (e : Engine) : Prop :=
  (∃ b ∈ e.blocks, b.active = false) ∨ e.blocks.length < cnslBlockTable

theorem doBlock_sound {b : Block} (hb : b ∈ (e.doBlock now ip).blocks) :
    b ∈ e.blocks ∨ b = ⟨ip, true, now + cnslBlockDuration⟩ := by
  simp only [doBlock] at hb
  split at hb
  · exact .inl hb
  split at hb
  · exact mem_or_eq_of_mem_set hb
  split at hb
  · exact .inl hb
  · simpa using hb

theorem doBlock_lasts {b : Block} (hb : b ∈ e.blocks) (hact : b.active) :
    b ∈ (e.doBlock now ip).blocks := by
  simp only [doBlock]
  split
  · exact hb
  split
  · rename_i i hi
    obtain ⟨hlt, hfree, -⟩ := findIdx?_eq_some_iff_getElem.mp hi
    obtain ⟨j, hj, rfl⟩ := getElem_of_mem hb
    have hij : i ≠ j := by
      rintro rfl
      simp [hact] at hfree
    rw [mem_iff_getElem]
    exact ⟨j, by simpa using hj, getElem_set_of_ne hij _ _⟩
  · split
    · exact hb
    · exact mem_append_left _ hb

theorem doBlock_blocks (h : e.HasBlock) : (e.doBlock now ip).isBlocked ip := by
  by_cases hblocked : e.isBlocked ip
  · simp [doBlock, hblocked]
  rw [isBlocked_iff]
  refine ⟨⟨ip, true, now + cnslBlockDuration⟩, ?_, rfl, rfl⟩
  simp only [doBlock, if_neg hblocked]
  cases hfind : e.blocks.findIdx? fun b => !b.active with
  | some i =>
    obtain ⟨hlt, -⟩ := findIdx?_eq_some_iff_getElem.mp hfind
    exact mem_set hlt _
  | none =>
    have hno : ∀ b ∈ e.blocks, b.active := by
      simpa using findIdx?_eq_none_iff.mp hfind
    have hroom : e.blocks.length < cnslBlockTable := by
      rcases h with ⟨b, hb, hfree⟩ | hroom
      · simp [hno b hb] at hfree
      · exact hroom
    simp [not_le.mpr hroom]

theorem cnslUnblock_sound {b : Block} (hb : b ∈ (e.cnslUnblock ip).1.blocks)
    (hact : b.active) : b ∈ e.blocks := by
  unfold cnslUnblock at hb
  split at hb
  · exact hb
  rename_i i _
  obtain ⟨j, hj, rfl⟩ := getElem_of_mem hb
  rw [getElem_modify] at hact ⊢
  by_cases hij : i = j
  · simp [hij] at hact
  rw [if_neg hij]
  exact getElem_mem _

theorem cnslUnblock_lasts {b : Block} (hb : b ∈ e.blocks) (hne : b.ip ≠ ip) :
    b ∈ (e.cnslUnblock ip).1.blocks := by
  unfold cnslUnblock
  split
  · exact hb
  rename_i i hi
  obtain ⟨hlt, hip, -⟩ := findIdx?_eq_some_iff_getElem.mp hi
  obtain ⟨j, hj, rfl⟩ := getElem_of_mem hb
  have hij : i ≠ j := by
    rintro rfl
    simp [hne] at hip
  rw [mem_iff_getElem]
  refine ⟨j, by simpa using hj, ?_⟩
  rw [getElem_modify, if_neg hij]

theorem cnslUnblock_table : (e.cnslUnblock ip).1.table = e.table := by
  unfold cnslUnblock
  split <;> rfl

theorem doBlock_table : (e.doBlock now ip).table = e.table := by
  simp only [doBlock]
  split
  · rfl
  split
  · rfl
  · split <;> rfl

/-! One event. -/

theorem entry_congr {e' : Engine} (h : e'.table = e.table) (x : UInt32) : e'.entry x = e.entry x := by
  rw [entry, h, entry]

/-- An event that is not refused: the entry of its address changes, and the address is blocked if a
rule raises an alert. -/
theorem ingest_spec (kind : Kind) {r : IpBuf × Option Rule}
    (hr : tryRules now Rule.all ((e.entry ip).record now kind) = r)
    (hfree : (e.tick now).isBlocked ip = false) (h : e.HasEntry ip) : ∃ e' : Engine,
      (∀ x, e'.entry x = if x = ip then r.1 else e.entry x) ∧
      e'.table.map IpBuf.ip = (if ip ∈ e.table.map IpBuf.ip
        then e.table.map IpBuf.ip else e.table.map IpBuf.ip ++ [ip]) ∧
      e'.blocks = (e.tick now).blocks ∧
      (e.ingest now ip kind).1 = if r.2 = none then e' else e'.doBlock now ip := by
  obtain ⟨table, i, hfind, hget, hset⟩ := findOrCreateBuf_spec (e := e.tick now) h
  obtain ⟨hentry, hips⟩ := hset r.1 (hr ▸ (tryRules_same Rule.all).2.trans (e.entry_ip ip))
  refine ⟨⟨table.set i r.1, (e.tick now).blocks⟩, hentry, hips, rfl, ?_⟩
  have hget : table.getD i (blank ip) = e.entry ip := hget
  simp only [ingest, hfree, hfind, hget, hr, Bool.false_eq_true, ↓reduceIte]
  cases r.2 <;> rfl

end Engine

/-! Runs. -/

/-- The engine, all events of an address, newest first, and the alerts that were raised. -/
structure Watch where
  engine : Engine
  events : UInt32 → List Event
  alerts : List (UInt32 × Rule × ℕ)

inductive Act where
  | ingest (ip : UInt32) (code now : ℕ)
  | unblock (ip : UInt32)
  | tick (now : ℕ)

namespace Watch

def init : Watch := ⟨Engine.init, fun _ => [], []⟩

def step (w : Watch) : Act → Watch
  | .ingest ip code now =>
    let r := w.engine.cnslIngest now ip code
    { engine := r.1
      events := match Kind.all[code]? with
        | none => w.events
        | some kind => update w.events ip (⟨now, kind⟩ :: w.events ip)
      alerts := match r.2.2 with
        | none => w.alerts
        | some rule => (ip, rule, now) :: w.alerts }
  | .unblock ip => { w with engine := (w.engine.cnslUnblock ip).1 }
  | .tick now => { w with engine := w.engine.tick now }

def last (w : Watch) (ip : UInt32) : List Event := (w.events ip).take 64

/-- A rule has raised an alert for an address within the cooldown. -/
def Alerted (w : Watch) (ip : UInt32) (r : Rule) (now : ℕ) : Prop :=
  ∃ t ≤ now, (ip, r, t) ∈ w.alerts ∧ now - t < cnslCooldown

end Watch

def Act.Ends (b : Block) : Act → Prop
  | .ingest _ _ now | .tick now => b.unblockAt ≤ now
  | .unblock ip => b.ip = ip

structure Watch.StepOk (w : Watch) (act : Act) : Prop where
  /-- The address of an event is blocked if a rule is met that has not raised an alert lately. -/
  complete : ∀ ip code now, act = .ingest ip code now → code < 9 → ∀ r : Rule,
    r.Met now ((w.step act).last ip) → ¬ w.Alerted ip r now → (w.step act).engine.isBlocked ip = true
  /-- A block was there before, or a rule is met by the events of its address. -/
  sound : ∀ b ∈ (w.step act).engine.blocks, b.active = true → b ∈ w.engine.blocks ∨
    ∃ code now, act = .ingest b.ip code now ∧ b.unblockAt = now + cnslBlockDuration ∧
      ∃ r : Rule, r.Met now ((w.step act).last b.ip)
  /-- A block stays until it ends. -/
  lasts : ∀ b ∈ w.engine.blocks, b.active = true → b ∈ (w.step act).engine.blocks ∨ act.Ends b

def GuardedAlong : Watch → List Act → Prop
  | _, [] => True
  | w, act :: acts => w.StepOk act ∧ GuardedAlong (w.step act) acts

/-- The address of an event is not blocked, and a rule that is met is not cooling down unless it has
raised an alert. -/
def Watch.Permits (w : Watch) : Act → Prop
  | .ingest ip code now => ∀ kind, Kind.all[code]? = some kind →
    (w.engine.tick now).isBlocked ip = false ∧
      ∀ r : Rule, r.Met now ((⟨now, kind⟩ :: w.events ip).take 64) → w.Alerted ip r now ∨
        (w.engine.entry ip).coolingDown now r = false
  | .unblock _ | .tick _ => True

def PermitsAll : Watch → List Act → Prop
  | _, [] => True
  | w, act :: acts => w.Permits act ∧ PermitsAll (w.step act) acts

def Watch.NotFull (w : Watch) : Act → Prop
  | .ingest _ _ now => (w.engine.tick now).HasBlock
  | .unblock _ | .tick _ => True

def NotFullAll : Watch → List Act → Prop
  | _, [] => True
  | w, act :: acts => w.NotFull act ∧ NotFullAll (w.step act) acts

def sources (acts : List Act) : List UInt32 :=
  acts.filterMap fun
    | .ingest ip _ _ => some ip
    | .unblock _ | .tick _ => none

structure Watch.Tracked (w : Watch) : Prop where
  ring : ∀ ip, (w.engine.entry ip).events.newest = w.last ip
  nodup : (w.engine.table.map ip).Nodup

namespace Watch
variable {w : Watch} {ip : UInt32} {code : ℕ} {kind : Kind}

theorem last_ingest (hkind : Kind.all[code]? = some kind) (x : UInt32) :
    (w.step (.ingest ip code now)).last x =
      if x = ip then (⟨now, kind⟩ :: w.events ip).take 64 else w.last x := by
  simp only [last, step, hkind]
  by_cases hx : x = ip
  · rw [hx, update_self, if_pos rfl]
  · rw [update_of_ne hx, if_neg hx]

theorem newest_record (h : w.Tracked) : ((w.engine.entry ip).record now kind).events.newest =
      (⟨now, kind⟩ :: w.events ip).take 64 := by
  rw [record, Recent.newest_push, h.ring, last, take_cons (by decide), take_take]
  simp

theorem engine_ingest (hkind : Kind.all[code]? = some kind) :
    (w.step (.ingest ip code now)).engine = (w.engine.ingest now ip kind).1 := by
  simp only [step, cnslIngest, hkind]

section
variable (h : w.Tracked) (hkind : Kind.all[code]? = some kind) (hentry : w.engine.HasEntry ip)
include h hkind hentry

theorem Tracked.ingest (hfree : (w.engine.tick now).isBlocked ip = false) :
    (w.step (.ingest ip code now)).Tracked ∧ (w.step (.ingest ip code now)).engine.table.map IpBuf.ip ⊆
      w.engine.table.map IpBuf.ip ++ [ip] := by
  obtain ⟨e', hentries, hips, -, heq⟩ := ingest_spec kind rfl hfree hentry
  have htable : (w.step (.ingest ip code now)).engine.table = e'.table := by
    rw [engine_ingest hkind, heq]
    split
    · rfl
    · exact doBlock_table
  refine ⟨⟨fun x => ?_, ?_⟩, ?_⟩
  · rw [entry_congr htable, hentries x, last_ingest hkind x]
    by_cases hx : x = ip
    · rw [if_pos hx, if_pos hx, (tryRules_same _).1, newest_record h]
    · rw [if_neg hx, if_neg hx, h.ring x]
  all_goals
    rw [htable, hips]
    split
  · exact h.nodup
  · rename_i hmem
    exact h.nodup.append (nodup_singleton ip) (by simpa using hmem)
  · exact subset_append_left _ _
  · exact Subset.refl _

theorem Tracked.complete (hpermits : w.Permits (.ingest ip code now))
    (hfull : w.NotFull (.ingest ip code now)) {r : Rule}
    (hmet : r.Met now ((w.step (.ingest ip code now)).last ip)) (hno : ¬ w.Alerted ip r now) :
    (w.step (.ingest ip code now)).engine.isBlocked ip := by
  obtain ⟨hfree, hcool⟩ := hpermits kind hkind
  obtain ⟨e', -, -, hblocks, heq⟩ := ingest_spec kind rfl hfree hentry
  rw [last_ingest hkind, if_pos rfl] at hmet
  have hcool : (w.engine.entry ip).coolingDown now r = false := (hcool r hmet).resolve_left hno
  rw [← newest_record h] at hmet
  have hfires := tryRules_complete (show r ∈ Rule.all by cases r <;> decide) (by decide)
    (show ((w.engine.entry ip).record now kind).coolingDown now r = false from hcool) hmet
  rw [engine_ingest hkind, heq, if_neg hfires]
  refine doBlock_blocks ?_
  rwa [HasBlock, hblocks]

/-- A block comes from a rule that is met, and stays until it ends. -/
theorem Tracked.blocks (hfree : (w.engine.tick now).isBlocked ip = false) {b : Block}
    (hact : b.active) : (b ∈ (w.step (.ingest ip code now)).engine.blocks →
      b ∈ w.engine.blocks ∨ b.ip = ip ∧ b.unblockAt = now + cnslBlockDuration ∧
        ∃ r : Rule, r.Met now ((w.step (.ingest ip code now)).last ip)) ∧
    (b ∈ w.engine.blocks → now < b.unblockAt →
      b ∈ (w.step (.ingest ip code now)).engine.blocks) := by
  obtain ⟨e', -, -, hblocks, heq⟩ := ingest_spec kind rfl hfree hentry
  have htick : b ∈ e'.blocks ↔ b ∈ w.engine.blocks ∧ now < b.unblockAt := by
    rw [hblocks]
    exact mem_tick hact
  rw [engine_ingest hkind, heq]
  split_ifs with hr
  · exact ⟨fun hb => .inl (htick.mp hb).1, fun hb hnow => htick.mpr ⟨hb, hnow⟩⟩
  · refine ⟨fun hb => ?_, fun hb hnow => doBlock_lasts (htick.mpr ⟨hb, hnow⟩) hact⟩
    rcases doBlock_sound hb with hb | rfl
    · exact .inl (htick.mp hb).1
    obtain ⟨r, hr⟩ := Option.ne_none_iff_exists'.mp hr
    refine .inr ⟨rfl, rfl, r, ?_⟩
    rw [last_ingest hkind, if_pos rfl, ← newest_record h]
    exact tryRules_sound hr

end

theorem step_invalid (hkind : Kind.all[code]? = none) : w.step (.ingest ip code now) = w := by
  simp only [step, cnslIngest, hkind]

theorem kind_none_iff : Kind.all[code]? = none ↔ 9 ≤ code := by
  simp [Kind.all]

theorem Tracked.step (h : w.Tracked) {act : Act} (hpermits : w.Permits act)
    (hfull : w.NotFull act) (hentry : ∀ ip ∈ sources [act], w.engine.HasEntry ip) :
    w.StepOk act ∧ (w.step act).Tracked ∧
      (w.step act).engine.table.map IpBuf.ip ⊆ w.engine.table.map IpBuf.ip ++ sources [act] := by
  cases act with
  | ingest ip code now =>
    have hentry : w.engine.HasEntry ip := hentry ip (by simp [sources])
    cases hkind : Kind.all[code]? with
    | none =>
      rw [step_invalid hkind]
      refine ⟨⟨?_, ?_, ?_⟩, h, subset_append_left _ _⟩
      · rintro _ _ _ ⟨⟩ hcode
        exact absurd (kind_none_iff.mp hkind) (by omega)
      · rw [step_invalid hkind]
        exact fun b hb _ => .inl hb
      · rw [step_invalid hkind]
        exact fun b hb _ => .inl hb
    | some kind =>
      obtain ⟨hfree, -⟩ := hpermits kind hkind
      refine ⟨⟨?_, ?_, ?_⟩, h.ingest hkind hentry hfree⟩
      · rintro _ _ _ ⟨⟩ _ r hmet hno
        exact h.complete hkind hentry hpermits hfull hmet hno
      · intro b hb hact
        rcases (h.blocks hkind hentry hfree hact).1 hb with hold | ⟨rfl, hend, hrule⟩
        · exact .inl hold
        · exact .inr ⟨code, now, rfl, hend, hrule⟩
      · intro b hb hact
        by_cases hnow : b.unblockAt ≤ now
        · exact .inr hnow
        · exact .inl ((h.blocks hkind hentry hfree hact).2 hb (by omega))
  | unblock ip =>
    refine ⟨⟨?_, ?_, ?_⟩, ?_, ?_⟩
    · rintro _ _ _ ⟨⟩
    · exact fun b hb hact => .inl (cnslUnblock_sound hb hact)
    · intro b hb _
      by_cases hip : b.ip = ip
      · exact .inr hip
      · exact .inl (cnslUnblock_lasts hb hip)
    · refine ⟨fun x => ?_, ?_⟩
      · exact (congrArg (·.events.newest) (entry_congr cnslUnblock_table x)).trans (h.ring x)
      · change ((w.engine.cnslUnblock ip).1.table.map IpBuf.ip).Nodup
        rw [cnslUnblock_table]
        exact h.nodup
    · change (w.engine.cnslUnblock ip).1.table.map IpBuf.ip ⊆ _
      rw [cnslUnblock_table]
      exact subset_append_left _ _
  | tick now =>
    refine ⟨⟨?_, ?_, ?_⟩, ⟨h.ring, h.nodup⟩, subset_append_left _ _⟩
    · rintro _ _ _ ⟨⟩
    · exact fun b hb hact => .inl ((mem_tick hact).mp hb).1
    intro b hb hact
    by_cases hnow : b.unblockAt ≤ now
    · exact .inr hnow
    · exact .inl ((mem_tick hact).mpr ⟨hb, by omega⟩)

theorem Tracked.hasEntry (h : w.Tracked) {ips : List UInt32}
    (hcard : (w.engine.table.map IpBuf.ip ++ ips).toFinset.card ≤ cnslMaxIps) (hip : ip ∈ ips) :
    w.engine.HasEntry ip := by
  by_cases hmem : ip ∈ w.engine.table.map IpBuf.ip
  · exact .inl hmem
  right
  have hnodup : (ip :: w.engine.table.map IpBuf.ip).Nodup := nodup_cons.mpr ⟨hmem, h.nodup⟩
  have hsub : (ip :: w.engine.table.map IpBuf.ip).toFinset ⊆
      (w.engine.table.map IpBuf.ip ++ ips).toFinset := by
    intro x hx
    simp only [mem_toFinset, mem_cons, mem_append] at hx ⊢
    rcases hx with rfl | hx
    · exact .inr hip
    · exact .inl hx
  have hle := (Finset.card_le_card hsub).trans hcard
  rwa [toFinset_card_of_nodup hnodup, length_cons, length_map] at hle

theorem Tracked.run (h : w.Tracked) {acts : List Act}
    (hcard : (w.engine.table.map IpBuf.ip ++ sources acts).toFinset.card ≤ cnslMaxIps)
    (hfull : NotFullAll w acts) (hpermits : PermitsAll w acts) : GuardedAlong w acts := by
  induction acts generalizing w with
  | nil => trivial
  | cons act acts ih =>
    have hsplit : sources (act :: acts) = sources [act] ++ sources acts := by
      simp only [sources, ← filterMap_append]
      rfl
    rw [hsplit] at hcard
    have hentry : ∀ ip ∈ sources [act], w.engine.HasEntry ip :=
      fun ip hip => h.hasEntry hcard (mem_append_left _ hip)
    obtain ⟨hok, hnext, hsub⟩ := h.step hpermits.1 hfull.1 hentry
    refine ⟨hok, ih hnext ?_ hfull.2 hpermits.2⟩
    refine (Finset.card_le_card fun x hx => ?_).trans hcard
    simp only [mem_toFinset, mem_append] at hx ⊢
    rcases hx with hx | hx
    · have := mem_append.mp (hsub hx)
      tauto
    · tauto

end Watch

/-- In every run whose steps meet the condition, with at most `CNSL_MAX_IPS` sources and a table of
blocks that is not full: the address of an event is blocked whenever a rule is met that has not
raised an alert within the cooldown, only a rule that is met blocks an address, and a block lasts
until it ends. -/
theorem guarded_run (acts : List Act) (hsources : (sources acts).toFinset.card ≤ cnslMaxIps)
    (hfull : NotFullAll Watch.init acts) (hpermits : PermitsAll Watch.init acts) :
    GuardedAlong Watch.init acts := by
  have hstart : Watch.init.Tracked := ⟨fun _ => rfl, nodup_nil⟩
  exact hstart.run hsources hfull hpermits

/-- A packet to a honeypot port, and a failed login some time later. -/
def scanThenLogin (pause : ℕ) : List Act := [.ingest 9 6 1000, .ingest 9 0 (1000 + pause)]

theorem scanThenLogin_notFull (pause : ℕ) : NotFullAll Watch.init (scanThenLogin pause) := by
  refine ⟨.inr (by decide), .inr ?_, trivial⟩
  rw [tick, length_map]
  decide

theorem scanThenLogin_guarded : (sources (scanThenLogin 130)).toFinset.card ≤ cnslMaxIps ∧
      GuardedAlong Watch.init (scanThenLogin 130) := by
  refine ⟨by decide, guarded_run _ (by decide) (scanThenLogin_notFull 130) ?_⟩
  refine ⟨fun kind hkind => ⟨rfl, fun r _ => .inr ?_⟩, fun kind hkind => ⟨?_, fun r _ => .inr ?_⟩,
    trivial⟩
  · cases r <;> decide
  · decide
  · cases r <;> decide

/-- The rule is stamped by the first event; ten seconds later its thresholds are met, and nothing
happens. -/
theorem scanThenLogin_missed : NotFullAll Watch.init (scanThenLogin 10) ∧
      (sources (scanThenLogin 10)).toFinset.card ≤ cnslMaxIps ∧
      ¬ GuardedAlong Watch.init (scanThenLogin 10) := by
  refine ⟨scanThenLogin_notFull 10, by decide, ?_⟩
  rintro ⟨-, hstep, -⟩
  have hblocked := hstep.complete 9 0 1010 rfl (by decide) .honeypotSsh (by decide) ?_
  · revert hblocked
    decide
  rintro ⟨t, -, halert, -⟩
  have hnone : (Watch.init.step (.ingest 9 6 1000)).alerts = [] := by decide
  rw [hnone] at halert
  simp at halert

end Exploidus.Cnsl
