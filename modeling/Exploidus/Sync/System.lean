import Exploidus.Lib.Ring
import Exploidus.Proc.Scheduler

/-! Mutexes, semaphores and message inboxes: the processes that use them, where each of them stands
inside a call that blocks, and the scheduler under them. -/
namespace Exploidus.Sync
open Proc RingBuffer Function

/-- `MUTEX_MAX_WAITERS` and `SEM_MAX_WAITERS`. -/
def maxWaiters : ℕ := 32

/-- `IPC_QUEUE_DEPTH`. -/
def queueDepth : ℕ := 8

/-- `IPC_MSG_PAYLOAD`. -/
def payloadSize : ℕ := 120

/-- `mutex_t`; the waiters are the first `waiter_count` elements of the array. -/
structure Mutex where
  locked : Bool
  owner : ℕ
  waiters : List ℕ
  deriving DecidableEq, Repr

/-- `semaphore_t`. -/
structure Semaphore where
  count : ℤ
  waiters : List ℕ
  deriving DecidableEq, Repr

/-- The value of an `int` after an operation that gives `x`. -/
def toInt (x : ℤ) : ℤ := Int.bmod x (2 ^ 32)

/-- `ipc_msg_t`. -/
structure Msg where
  fromPid : ℕ
  type : ℕ
  data : ℕ → UInt8
  len : ℕ

/-- What a message says: who sent it, its type, and the valid part of its payload. -/
structure Content where
  sender : ℕ
  type : ℕ
  payload : List UInt8
  deriving DecidableEq, Repr

def Msg.content (m : Msg) : Content := ⟨m.fromPid, m.type, (List.range m.len).map m.data⟩

/-- The message that `sys_ipc_send` makes of that of the process `pid`. -/
def Msg.fromUser (m : Msg) (pid : ℕ) : Msg :=
  { m with fromPid := pid, len := if m.len < payloadSize then m.len else payloadSize }

/-- The slot of an inbox after `ipc_send` copied a message over what was in it. -/
def Msg.copyOver (old m : Msg) : Msg where
  fromPid := m.fromPid
  type := m.type
  data i := if i < min m.len payloadSize then m.data i else old.data i
  len := min m.len payloadSize

/-- `ipc_state_t`. -/
structure Inbox where
  ring : Ring queueDepth Msg
  waiting : Bool

/-- What `ipc_alloc_state` returns. -/
def Inbox.new : Inbox := ⟨.empty (by decide) ⟨0, 0, fun _ => 0, 0⟩, false⟩

/-- Where a process stands: outside, or inside the loop of a call that blocks, before its
`sched_yield` or after it. -/
inductive Phase where
  | free
  | locking (m : ℕ) (yielded : Bool)
  | waiting (k : ℕ) (yielded : Bool)
  | receiving (yielded : Bool)
  deriving DecidableEq, Repr

/-- The phase after `sched_yield` returned. -/
def Phase.yield : Phase → Phase
  | .free => .free
  | .locking m _ => .locking m true
  | .waiting k _ => .waiting k true
  | .receiving _ => .receiving true

inductive Event where
  | acquired (m : ℕ) (i : Slot)
  | released (m : ℕ) (i : Slot)
  | posted (k : ℕ)
  | waited (k : ℕ)
  | sent (i : Slot) (c : Content)
  | received (i : Slot) (c : Content)
  deriving DecidableEq, Repr

/-- The scheduler, the mutexes, the semaphores, the inboxes, where each process stands, and what
calls did so far, the last first. -/
structure System where
  sched : Sched
  mutexes : ℕ → Mutex
  sems : ℕ → Semaphore
  inboxes : Slot → Option Inbox
  phases : Slot → Phase
  log : List Event

/-- The wake-up of one waiter by `mutex_unlock` and `sem_post`. -/
def wakePid (s : Sched) (pid : ℕ) : Sched :=
  match s.procGet pid with
  | none => s
  | some i => if (s.procs i).state = .blocked then s.makeReady i id else s

def wakeAll (s : Sched) (pids : List ℕ) : Sched := pids.foldl wakePid s

namespace System
variable (s : System)

def setPhase (c : Slot) (p : Phase) : System := { s with phases := update s.phases c p }

def setMutex (m : ℕ) (x : Mutex) : System := { s with mutexes := update s.mutexes m x }

def setSem (k : ℕ) (x : Semaphore) : System := { s with sems := update s.sems k x }

def setInbox (i : Slot) (b : Inbox) : System :=
  { s with inboxes := update s.inboxes i (some b) }

def note (e : Event) : System := { s with log := e :: s.log }

/-- The calling process goes to sleep, up to its call of `sched_yield`. -/
def block (c : Slot) : System := { s with sched := s.sched.setState c .blocked }

/-! ### `sync.c` -/

/-- What `mutex_lock` and `mutex_trylock` do with a mutex that is not locked. -/
def acquire (c : Slot) (m : ℕ) : System :=
  (s.setMutex m { s.mutexes m with locked := true, owner := (s.sched.procs c).pid }).note
    (.acquired m c)

/-- One turn of the loop of `mutex_lock`. -/
def lockTurn (c : Slot) (m : ℕ) : System :=
  let x := s.mutexes m
  if x.locked = false then (s.acquire c m).setPhase c .free
  else if x.waiters.length < maxWaiters then
    ((s.setMutex m { x with waiters := x.waiters ++ [(s.sched.procs c).pid] }).block c).setPhase c
      (.locking m false)
  else s.setPhase c (.locking m false)

/-- `mutex_trylock`. -/
def mutexTrylock (c : Slot) (m : ℕ) : System :=
  if (s.mutexes m).locked = false then s.acquire c m else s

/-- `mutex_unlock`. -/
def mutexUnlock (c : Slot) (m : ℕ) : System :=
  { s.setMutex m ⟨false, 0, []⟩ with
    sched := wakeAll s.sched (s.mutexes m).waiters }.note (.released m c)

/-- One turn of the loop of `sem_wait`. -/
def waitTurn (c : Slot) (k : ℕ) : System :=
  let x := s.sems k
  if 0 < x.count then
    ((s.setSem k { x with count := toInt (x.count - 1) }).note (.waited k)).setPhase c .free
  else if x.waiters.length < maxWaiters then
    ((s.setSem k { x with waiters := x.waiters ++ [(s.sched.procs c).pid] }).block c).setPhase c
      (.waiting k false)
  else s.setPhase c (.waiting k false)

/-- `sem_post`. -/
def semPost (k : ℕ) : System :=
  { s.setSem k ⟨toInt ((s.sems k).count + 1), []⟩ with
    sched := wakeAll s.sched (s.sems k).waiters }.note (.posted k)

/-! ### `ipc.c` -/

/-- `ipc_send` of the process `c`. -/
def ipcSend (c : Slot) (dst : ℕ) (msg : Msg) : System :=
  match s.sched.procGet dst with
  | none => s
  | some i =>
    if (s.sched.procs i).state = .zombie then s
    else match s.inboxes i with
      | none => s
      | some b =>
        if h : b.ring.count < queueDepth then
          let kmsg := msg.fromUser (s.sched.procs c).pid
          let ring := b.ring.push ((b.ring.slots b.ring.tail).copyOver kmsg) h
          let s1 := (s.setInbox i ⟨ring, false⟩).note (.sent i kmsg.content)
          if b.waiting then { s1 with sched := s.sched.makeReady i id } else s1
        else s

def takeMsg (c : Slot) (b : Inbox) (h : 0 < b.ring.count) : System :=
  (s.setInbox c { b with ring := b.ring.pop h }).note
    (.received c (b.ring.slots b.ring.head).content)

/-- One turn of the loop of `ipc_recv`. -/
def recvTurn (c : Slot) : System :=
  match s.inboxes c with
  | none => s.setPhase c .free
  | some b =>
    if h : 0 < b.ring.count then (s.takeMsg c b h).setPhase c .free
    else ((s.setInbox c { b with waiting := true }).block c).setPhase c (.receiving false)

/-- `ipc_recv_nb`. -/
def ipcRecvNb (c : Slot) : System :=
  match s.inboxes c with
  | none => s
  | some b => if h : 0 < b.ring.count then s.takeMsg c b h else s

/-! ### Steps -/

def caller : Option Slot :=
  match s.sched.current with
  | none => none
  | some c =>
    if (s.sched.procs c).state = .running ∧ (s.sched.procs c).reaping = none ∧
      s.phases c = .free then some c else none

/-- `sched_yield` of the running process. -/
def yield : System :=
  { s with
    sched := s.sched.schedYield
    phases := match s.sched.current with
      | none => s.phases
      | some c => update s.phases c (s.phases c).yield }

/-- The next turn of the loop in which the running process is, after its `sched_yield`. -/
def resume : System :=
  match s.sched.current with
  | none => s
  | some c =>
    if (s.sched.procs c).state = .running then
      match s.phases c with
      | .locking m true => s.lockTurn c m
      | .waiting k true => s.waitTurn c k
      | .receiving true => s.recvTurn c
      | _ => s
    else s

end System

/-- The steps of the system: the calls of the running process, the next turn of a loop in which it
is, and everything else that the scheduler does. -/
inductive Call where
  | lock (m : ℕ)
  | trylock (m : ℕ)
  | unlock (m : ℕ)
  | semWait (k : ℕ)
  | semPost (k : ℕ)
  | send (dst : ℕ) (msg : Msg)
  | recv
  | recvNb
  | resume
  | other (c : SchedCall)

/-- The steps of the scheduler that are no call of the running process. -/
def background : SchedCall → Bool
  | .idle => true
  | .tick => true
  | .wake _ _ => true
  | _ => false

def System.byCaller (s : System) (f : Slot → System) : System :=
  match s.caller with
  | none => s
  | some c => f c

def System.step (s : System) : Call → System
  | .lock m => s.byCaller fun c => s.lockTurn c m
  | .trylock m => s.byCaller fun c => s.mutexTrylock c m
  | .unlock m => s.byCaller fun c => s.mutexUnlock c m
  | .semWait k => s.byCaller fun c => s.waitTurn c k
  | .semPost k => s.byCaller fun _ => s.semPost k
  | .send dst msg => s.byCaller fun c => s.ipcSend c dst msg
  | .recv => s.byCaller fun c => s.recvTurn c
  | .recvNb => s.byCaller fun c => s.ipcRecvNb c
  | .resume => s.resume
  | .other .yield => s.yield
  | .other c =>
    if background c then { s with sched := s.sched.exec c }
    else s.byCaller fun _ => { s with sched := s.sched.exec c }

def System.run (s : System) (cs : List Call) : System := cs.foldl System.step s

/-- The system after boot, with semaphores of these initial counts; `alloc` says for which processes
`ipc_alloc_state` will find memory. -/
def boot (initial : ℕ → ℤ) (alloc : Slot → Bool) : System where
  sched := schedBoot
  mutexes _ := ⟨false, 0, []⟩
  sems k := ⟨initial k, []⟩
  inboxes i := if alloc i then some Inbox.new else none
  phases _ := .free
  log := []

/-! ### What the log says -/

/-- The processes that acquired the mutex and did not release it since. -/
def holders (m : ℕ) : List Event → List Slot
  | [] => []
  | .acquired m' i :: l => if m' = m then i :: holders m l else holders m l
  | .released m' i :: l => if m' = m then (holders m l).erase i else holders m l
  | _ :: l => holders m l

/-- The messages for which a send to the process succeeded, in order. -/
def sentTo (i : Slot) : List Event → List Content
  | [] => []
  | .sent j c :: l => if j = i then sentTo i l ++ [c] else sentTo i l
  | _ :: l => sentTo i l

def receivedBy (i : Slot) : List Event → List Content
  | [] => []
  | .received j c :: l => if j = i then receivedBy i l ++ [c] else receivedBy i l
  | _ :: l => receivedBy i l

end Exploidus.Sync
