import Exploidus.Lib.Ring

/-! The correlation engine of the kernel: events of a source address, the rules over them, and the
table of blocked addresses. Time is in seconds; the serial line and the audit log are left out. -/
namespace Exploidus.Cnsl
open RingBuffer

inductive Kind where
  | sshFail | sshSuccess | dbAuthFail | webScan | webExploit | webAuthFail | fwHoneypotPort
  | sudoFail | suFail
  deriving DecidableEq

def Kind.all : List Kind :=
  [.sshFail, .sshSuccess, .dbAuthFail, .webScan, .webExploit, .webAuthFail, .fwHoneypotPort,
    .sudoFail, .suFail]

def Kind.code : Kind → ℕ
  | .sshFail => 0
  | .sshSuccess => 1
  | .dbAuthFail => 2
  | .webScan => 3
  | .webExploit => 4
  | .webAuthFail => 5
  | .fwHoneypotPort => 6
  | .sudoFail => 7
  | .suFail => 8

/-- The bit of the group of services that a kind belongs to. -/
def Kind.group : Kind → ℕ
  | .sshFail | .sshSuccess => 0
  | .webScan | .webExploit | .webAuthFail => 1
  | .dbAuthFail | .fwHoneypotPort | .sudoFail | .suFail => 2

/-- `cnsl_event_t`. -/
structure Event where
  ts : ℕ
  kind : Kind
  deriving DecidableEq

def cnslMaxIps : ℕ := 256
def cnslBlockTable : ℕ := 64
def cnslCooldown : ℕ := 120
def cnslBlockDuration : ℕ := 1800

/-- `event_in_window`. -/
def eventInWindow (now ts window : ℕ) : Bool := decide (ts ≤ now ∧ now - ts ≤ window)

inductive Rule where
  | honeypotSsh | credentialSpray | webReconSsh | privesc | webAuthFlood | anomalyScanWindow
  deriving DecidableEq

def Rule.all : List Rule :=
  [.honeypotSsh, .credentialSpray, .webReconSsh, .privesc, .webAuthFlood, .anomalyScanWindow]

/-- `ip_buf_t`, with the ring of the last `CNSL_EVENT_BUF` events. -/
structure IpBuf where
  ip : UInt32
  events : Recent 64 Event
  lastAlertTs : Rule → ℕ

namespace IpBuf
variable (buf : IpBuf) (now : ℕ)

def blank (ip : UInt32) : IpBuf := ⟨ip, .empty (by decide) ⟨0, .sshFail⟩, fun _ => 0⟩

/-- `count_kind`. -/
def countKind (kind : Kind) (window : ℕ) : ℕ :=
  buf.events.stored.countP fun ev => eventInWindow now ev.ts window && decide (ev.kind = kind)

/-- The masks of `count_window_stats`: a bit for each event in the window. -/
def mask (bit : Kind → ℕ) (window : ℕ) : ℕ :=
  buf.events.stored.foldl
    (fun m ev => if eventInWindow now ev.ts window then m ||| 1 <<< bit ev.kind else m) 0

/-- The total of `count_window_stats`. -/
def countWindow (window : ℕ) : ℕ := buf.events.stored.countP fun ev => eventInWindow now ev.ts window

/-- `popcount16`; the loop ends after at most sixteen turns. -/
def popcount : ℕ → ℕ → ℕ
  | 0, _ => 0
  | fuel + 1, v => v % 2 + popcount fuel (v / 2)

def popcount16 (v : ℕ) : ℕ := popcount 16 v

def meets : Rule → Bool
  | .honeypotSsh =>
    1 ≤ buf.countKind now .fwHoneypotPort 180 && 1 ≤ buf.countKind now .sshFail 180
  | .credentialSpray =>
    3 ≤ buf.countKind now .sshFail 300 && 2 ≤ buf.countKind now .dbAuthFail 300
  | .webReconSsh =>
    5 ≤ buf.countKind now .webScan 600 + buf.countKind now .webExploit 600 &&
      3 ≤ buf.countKind now .sshFail 600
  | .privesc =>
    1 ≤ buf.countKind now .sshSuccess 300 &&
      2 ≤ buf.countKind now .sudoFail 300 + buf.countKind now .suFail 300
  | .webAuthFlood => 15 ≤ buf.countKind now .webAuthFail 120
  | .anomalyScanWindow =>
    20 ≤ buf.countWindow now 1800 && 4 ≤ popcount16 (buf.mask now Kind.code 1800) &&
      3 ≤ popcount16 (buf.mask now Kind.group 1800)

/-- Whether `check_cooldown` refuses a rule. -/
def coolingDown (rule : Rule) : Bool :=
  let last := buf.lastAlertTs rule
  decide (last ≠ 0 ∧ last ≤ now ∧ now - last < cnslCooldown)

def record (kind : Kind) : IpBuf := { buf with events := buf.events.push ⟨now, kind⟩ }

/-- The stamp that `check_cooldown` sets. -/
def stamp (rule : Rule) : IpBuf :=
  { buf with lastAlertTs := Function.update buf.lastAlertTs rule now }

/-- The rules one after the other: a rule that is not cooling down is stamped, then its thresholds
are tested. The result is the first rule that raises an alert. -/
def tryRules : List Rule → IpBuf → IpBuf × Option Rule
  | [], buf => (buf, none)
  | rule :: rules, buf =>
    if buf.coolingDown now rule then tryRules rules buf
    else if (buf.stamp now rule).meets now rule then (buf.stamp now rule, some rule)
    else tryRules rules (buf.stamp now rule)

end IpBuf

/-- `block_entry_t`. -/
structure Block where
  ip : UInt32
  active : Bool
  unblockAt : ℕ
  deriving DecidableEq

/-- `g_ip_table` and `g_block_table`, as far as they are in use. -/
structure Engine where
  table : List IpBuf
  blocks : List Block

namespace Engine
variable (e : Engine) (now : ℕ)

/-- `cnsl_init`. -/
def init : Engine := ⟨[], []⟩

/-- `cnsl_is_blocked`. -/
def isBlocked (ip : UInt32) : Bool := e.blocks.any fun b => decide (b.ip = ip) && b.active

/-- `cnsl_tick`. -/
def tick : Engine :=
  { e with blocks := e.blocks.map fun b =>
      if b.active ∧ b.unblockAt ≤ now then { b with active := false } else b }

/-- `find_or_create_buf`: the table and the index of the entry. -/
def findOrCreateBuf (ip : UInt32) : Option (List IpBuf × ℕ) :=
  match e.table.findIdx? fun buf => decide (buf.ip = ip) with
  | some i => some (e.table, i)
  | none =>
    if cnslMaxIps ≤ e.table.length then none
    else some (e.table ++ [IpBuf.blank ip], e.table.length)

/-- `do_block`. -/
def doBlock (ip : UInt32) : Engine :=
  let b : Block := ⟨ip, true, now + cnslBlockDuration⟩
  if e.isBlocked ip then e
  else
    match e.blocks.findIdx? fun b => !b.active with
    | some i => { e with blocks := e.blocks.set i b }
    | none => if cnslBlockTable ≤ e.blocks.length then e else { e with blocks := e.blocks ++ [b] }

/-- `cnsl_ingest` of an event with a valid kind: the engine, the result, and the rule that raised
an alert. -/
def ingest (ip : UInt32) (kind : Kind) : Engine × Bool × Option Rule :=
  let e := e.tick now
  if e.isBlocked ip then (e, true, none)
  else
    match e.findOrCreateBuf ip with
    | none => (e, false, none)
    | some (table, i) =>
      let buf := (table.getD i (IpBuf.blank ip)).record now kind
      let r := IpBuf.tryRules now Rule.all buf
      let e := { e with table := table.set i r.1 }
      match r.2 with
      | none => (e, false, none)
      | some rule => (e.doBlock now ip, true, some rule)

/-- `cnsl_ingest`: codes that stand for no kind are refused. -/
def cnslIngest (ip : UInt32) (code : ℕ) : Engine × Bool × Option Rule :=
  match Kind.all[code]? with
  | none => (e, false, none)
  | some kind => e.ingest now ip kind

/-- `cnsl_unblock`. -/
def cnslUnblock (ip : UInt32) : Engine × Bool :=
  match e.blocks.findIdx? fun b => decide (b.ip = ip) && b.active with
  | none => (e, false)
  | some i => ({ e with blocks := e.blocks.modify i fun b => { b with active := false } }, true)

def cnslGetBlockTtl (ip : UInt32) : ℕ :=
  match e.blocks.find? fun b => decide (b.ip = ip) && b.active with
  | none => 0
  | some b => b.unblockAt - now

end Engine

end Exploidus.Cnsl
