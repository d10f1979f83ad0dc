import Exploidus.Lib.Linked

/-! The process table and the ready queues: every path that changes a process's state or the
queue it is in. -/
namespace Exploidus.Proc

/-- `proc_state_t`. -/
inductive ProcState where
  | unused
  | running
  | ready
  | blocked
  | zombie
  deriving DecidableEq, Repr

/-- `proc_intent_t`. -/
inductive Intent where
  | compute
  | io
  | network
  | interactive
  | audit
  deriving DecidableEq, Repr

/-- The intents below `INTENT_COUNT`. -/
def Intent.ofIndex : ℕ → Option Intent
  | 0 => some .compute
  | 1 => some .io
  | 2 => some .network
  | 3 => some .interactive
  | 4 => some .audit
  | _ => none

/-- `QUEUE_ORDER`. -/
def queueOrder : List Intent := [.audit, .interactive, .io, .network, .compute]

/-- `MAX_PROCESSES`. -/
def maxProcesses : ℕ := 256

abbrev Slot := Fin 256

/-- The fields of `process_t` that scheduling reads and writes, and the pid that a `waitpid` call
in progress will reap. -/
structure Process where
  pid : ℕ
  state : ProcState
  intent : Intent
  blockedOn : ℕ
  wakeTick : ℕ
  next : Option Slot
  reaping : Option ℕ
  deriving DecidableEq, Repr

/-- The process table, the queue heads, the running process, and the pids registered as waiters of
a mutex, a semaphore, a futex or an IPC inbox. -/
structure Sched where
  procs : Slot → Process
  queues : Intent → Option Slot
  current : Option Slot
  nextPid : ℕ
  uptime : ℕ
  waiters : List ℕ

namespace Sched
variable (s : Sched)

def update (i : Slot) (f : Process → Process) : Sched :=
  { s with procs := Function.update s.procs i (f (s.procs i)) }

def setNext (i : Slot) (n : Option Slot) : Sched := s.update i fun p => { p with next := n }

def setState (i : Slot) (st : ProcState) : Sched := s.update i fun p => { p with state := st }

def setQueue (q : Intent) (h : Option Slot) : Sched :=
  { s with queues := Function.update s.queues q h }

/-! ### The queues -/

/-- The search for `p` in a queue: found or not, or given up when the guard runs out. -/
def holds (p : Slot) : ℕ → Option Slot → Option Bool
  | _, none => some false
  | 0, some _ => none
  | guard + 1, some c =>
    if c = p then some true
    else if guard = 0 then none
    else holds p guard (s.procs c).next

/-- The last element of a queue, if the guard does not run out. -/
def lastOf : ℕ → Slot → Option Slot
  | guard, c =>
    match (s.procs c).next, guard with
    | none, _ => some c
    | some _, 0 => none
    | some n, guard + 1 => lastOf guard n

/-- `sched_enqueue`. -/
def enqueue (p : Slot) : Sched :=
  let q := (s.procs p).intent
  match s.holds p (maxProcesses + 1) (s.queues q) with
  | none => s
  | some true => s
  | some false =>
    let s1 := s.setNext p none
    match s1.queues q with
    | none => s1.setQueue q (some p)
    | some h =>
      match s1.lastOf maxProcesses h with
      | none => s1
      | some z => s1.setNext z (some p)

/-- The loop of `sched_dequeue` from `cur`, for at most as many elements as the first argument. -/
def removeFrom (q : Intent) (p : Slot) : ℕ → Option Slot → Option Slot → Sched
  | 0, _, _ => s
  | _ + 1, _, none => s
  | fuel + 1, prev, some cur =>
    if cur = p then
      let s1 := match prev with
        | some z => s.setNext z (s.procs cur).next
        | none => s.setQueue q (s.procs cur).next
      s1.setNext cur none
    else removeFrom q p fuel (some cur) (s.procs cur).next

/-- `sched_dequeue`. -/
def dequeue (p : Slot) : Sched :=
  let q := (s.procs p).intent
  s.removeFrom q p (maxProcesses + 1) none (s.queues q)

/-- `sched_next`. -/
def schedNext : Option Slot := queueOrder.findSome? s.queues

/-! ### Processes -/

/-- `proc_get`. -/
def procGet (pid : ℕ) : Option Slot :=
  (List.finRange 256).find? fun i => (s.procs i).pid = pid ∧ (s.procs i).state ≠ .unused

/-- `proc_create`; without a kernel stack it returns NULL but the slot stays taken. -/
def procCreate (intent : Intent) (stackOk : Bool) : Sched × Option Slot :=
  match (List.finRange 256).find? fun i => (s.procs i).state = .unused with
  | none => (s, none)
  | some i =>
    let s1 := s.update i fun _ => ⟨s.nextPid, .blocked, intent, 0, 0, none, none⟩
    ({ s1 with nextPid := (s.nextPid + 1) % 2 ^ 32 }, if stackOk then some i else none)

def makeReady (i : Slot) (f : Process → Process) : Sched :=
  (s.update i fun p => { f p with state := .ready }).enqueue i

/-- The wake-up of `proc_exit` at one slot. -/
def exitWake (pid : ℕ) (i : Slot) : Sched :=
  if (s.procs i).state = .blocked ∧ (s.procs i).blockedOn = pid then
    s.makeReady i fun p => { p with blockedOn := 0 }
  else s

/-- `proc_exit`. -/
def procExit (pid : ℕ) : Sched :=
  match s.procGet pid with
  | none => s
  | some i => (List.finRange 256).foldl (fun s j => s.exitWake pid j) (s.setState i .zombie)

/-- `unblock_waiters` at one slot. -/
def unblockWaiter (i : Slot) : Sched :=
  if (s.procs i).state ≠ .blocked ∨ (s.procs i).blockedOn = 0 then s
  else
    let wake : Bool := match s.procGet (s.procs i).blockedOn with
      | none => true
      | some c => decide ((s.procs c).state = .zombie)
    if wake then s.makeReady i fun p => { p with blockedOn := 0 } else s

def unblockWaiters : Sched := (List.finRange 256).foldl unblockWaiter s

/-- `unblock_sleepers` at one slot. -/
def unblockSleeper (i : Slot) : Sched :=
  if (s.procs i).state ≠ .blocked ∨ (s.procs i).wakeTick = 0 then s
  else if (s.procs i).wakeTick ≤ s.uptime then s.makeReady i fun p => { p with wakeTick := 0 }
  else s

def unblockSleepers : Sched := (List.finRange 256).foldl unblockSleeper s

/-! ### Switching -/

/-- The end of `sched_yield`: take `n` off its queue and run it. -/
def dispatch (n : Slot) : Sched := { (s.dequeue n).setState n .running with current := some n }

/-- `sched_yield` up to its call of `sched_next`. -/
def beforeSwitch (prev : Slot) : Sched :=
  let s1 := if (s.procs prev).state = .running then (s.setState prev .ready).enqueue prev else s
  { s1 with current := none }.unblockWaiters

/-- `sched_yield`; with nothing to run and nothing requeued the processor is left idle. -/
def schedYield : Sched :=
  match s.current with
  | none => s
  | some prev =>
    let s2 := s.beforeSwitch prev
    match s2.schedNext with
    | some n => s2.dispatch n
    | none =>
      if (s.procs prev).state = .running then
        { s2.setState prev .running with current := some prev }
      else s2

/-- One turn of the idle loop, up to its call of `sched_next`. -/
def idlePoll : Sched := s.unblockSleepers.unblockWaiters

/-- The end of a turn of the idle loop: run the next process, if there is one. -/
def idleSwitch : Sched :=
  match s.schedNext with
  | some n => s.dispatch n
  | none => s

/-- One turn of the idle loop of `sched_yield`. -/
def idleTurn : Sched := s.idlePoll.idleSwitch

/-- `sched_tick`. -/
def tick : Sched := { s with uptime := s.uptime + 1 }.unblockSleepers.unblockWaiters

/-! ### System calls of the running process `c` -/

/-- `sys_spawn`; without a child nothing happens, and a child whose image fails to load exits. -/
def sysSpawn (intent : ℕ) (stackOk loadOk : Bool) : Sched :=
  let r := s.procCreate ((Intent.ofIndex intent).getD .interactive) stackOk
  match r.2 with
  | none => r.1
  | some i =>
    if loadOk then (r.1.setState i .ready).enqueue i else r.1.procExit (r.1.procs i).pid

/-- `sys_execv`: as `sys_spawn`, but the child is not put in a queue. -/
def sysExecv (stackOk loadOk : Bool) : Sched :=
  let r := s.procCreate .interactive stackOk
  match r.2 with
  | none => r.1
  | some i => if loadOk then r.1.setState i .ready else r.1.procExit (r.1.procs i).pid

/-- `sys_fork_impl`. -/
def sysFork (c : Slot) (stackOk copyOk : Bool) : Sched :=
  let r := s.procCreate (s.procs c).intent stackOk
  match r.2 with
  | none => r.1
  | some i =>
    if copyOk then (r.1.setState i .ready).enqueue i else r.1.procExit (r.1.procs i).pid

/-- `sys_set_intent`; `allowed` is the answer of the broker for the audit intent. -/
def sysSetIntent (c : Slot) (intent : ℕ) (allowed : Bool) : Sched :=
  match Intent.ofIndex intent with
  | none => s
  | some q =>
    if q = .audit ∧ allowed = false then s
    else ((s.dequeue c).update c fun p => { p with intent := q }).enqueue c

/-- `sys_sleep` up to its call of `sched_yield`. -/
def sysSleep (c : Slot) (ticks : ℕ) : Sched :=
  if ticks = 0 then s
  else s.update c fun p =>
    { p with wakeTick := (s.uptime + ticks) % 2 ^ 64, state := .blocked }

/-- Waiting for a mutex, a semaphore, a futex or a message, up to the call of `sched_yield`. -/
def waitOn (c : Slot) : Sched :=
  { s.setState c .blocked with waiters := s.waiters ++ [(s.procs c).pid] }

/-- `sys_waitpid_impl` up to its call of `sched_yield`, or up to the reaping of a zombie. -/
def sysWaitpid (c : Slot) (pid : ℕ) : Sched :=
  match s.procGet pid with
  | none => s
  | some i =>
    if (s.procs i).state ≠ .zombie then
      s.update c fun p => { p with blockedOn := pid, state := .blocked, reaping := some pid }
    else s.update c fun p => { p with reaping := some pid }

/-- The rest of `sys_waitpid_impl`. -/
def reap (c : Slot) (pid : ℕ) : Sched :=
  let s1 := s.update c fun p => { p with reaping := none }
  match s1.procGet pid with
  | none => s1
  | some i => s1.update i fun p => { p with state := .unused, pid := 0 }

/-- The wake-up of one registered waiter: `ipc_send` does not look at its state, the others wake
it only when it is blocked. -/
def wake (pid : ℕ) (ipc : Bool) : Sched :=
  if pid ∈ s.waiters then
    let s1 := { s with waiters := s.waiters.erase pid }
    match s1.procGet pid with
    | none => s1
    | some i =>
      if ipc = true ∧ (s1.procs i).state ≠ .zombie ∨ (s1.procs i).state = .blocked then
        s1.makeReady i id
      else s1
  else s

end Sched

/-- The steps of the system. The calls are those of the running process; `reap` is the end of its
`waitpid`, `idle` a turn of the idle loop, `tick` the timer interrupt. -/
inductive SchedCall where
  | spawn (intent : ℕ) (stackOk loadOk : Bool)
  | execv (stackOk loadOk : Bool)
  | fork (stackOk copyOk : Bool)
  | setIntent (intent : ℕ) (allowed : Bool)
  | sleep (ticks : ℕ)
  | waitOn
  | waitpid (pid : ℕ)
  | reap
  | exit
  | yield
  | idle
  | tick
  | wake (pid : ℕ) (ipc : Bool)

/-- A call that is only made by a process that runs and is not inside `waitpid`. -/
def Sched.byRunning (s : Sched) (f : Slot → Sched) : Sched :=
  match s.current with
  | none => s
  | some c => if (s.procs c).state = .running ∧ (s.procs c).reaping = none then f c else s

def Sched.exec (s : Sched) : SchedCall → Sched
  | .spawn intent stackOk loadOk => s.byRunning fun _ => s.sysSpawn intent stackOk loadOk
  | .execv stackOk loadOk => s.byRunning fun _ => s.sysExecv stackOk loadOk
  | .fork stackOk copyOk => s.byRunning fun c => s.sysFork c stackOk copyOk
  | .setIntent intent allowed => s.byRunning fun c => s.sysSetIntent c intent allowed
  | .sleep ticks => s.byRunning fun c => s.sysSleep c ticks
  | .waitOn => s.byRunning fun c => s.waitOn c
  | .waitpid pid => s.byRunning fun c => s.sysWaitpid c pid
  | .reap =>
    match s.current with
    | none => s
    | some c =>
      match (s.procs c).reaping with
      | none => s
      | some pid => if (s.procs c).state = .running then s.reap c pid else s
  | .exit => s.byRunning fun c => s.procExit (s.procs c).pid
  | .yield => s.schedYield
  | .idle => if s.current = none then s.idleTurn else s
  | .tick => s.tick
  | .wake pid ipc => s.wake pid ipc

def Sched.run (s : Sched) (cs : List SchedCall) : Sched := cs.foldl Sched.exec s

def schedInit : Sched where
  procs _ := ⟨0, .unused, .compute, 0, 0, none, none⟩
  queues _ := none
  current := none
  nextPid := 1
  uptime := 0
  waiters := []

/-- The start of the first process by `kernel_main`: created, put in its queue, taken off it, run. -/
def schedBoot : Sched :=
  let s := (schedInit.procCreate .interactive true).1
  { ((s.enqueue 0).dequeue 0).setState 0 .running with current := some 0 }

end Exploidus.Proc
