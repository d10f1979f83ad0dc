import Mathlib.Tactic

/-! UDP ports: the sockets, the bindings of the UDP layer, and who gets a datagram. -/
namespace Exploidus.Net
open Function List

inductive SockType where
  | none | tcp | udp
  deriving DecidableEq

/-- `socket_t` without its connection and its receive ring. -/
structure Sock where
  type : SockType
  active : Bool
  localPort : UInt16
  remoteIp : UInt32
  remotePort : UInt16

/-- A connected socket takes datagrams from its peer only. -/
def Sock.takes (k : Sock) (srcIp : UInt32) (srcPort : UInt16) : Bool :=
  decide (k.remotePort = 0 ∨ k.remoteIp = srcIp ∧ k.remotePort = srcPort)

/-- The callbacks that are registered: `socket_udp_recv_cb` and `dns_recv_cb`. -/
inductive RecvCb where
  | socket | dns
  deriving DecidableEq

structure Binding where
  port : UInt16
  cb : RecvCb
  deriving DecidableEq

/-- `g_sockets`, the active entries of `g_bindings`, which are filled in order and never cleared,
`g_next_ephemeral`, and whether there is an interface. -/
structure Sockets where
  socks : Fin 32 → Sock
  bindings : List Binding
  nextEphemeral : UInt16
  iface : Bool

/-- `DNS_SRC_PORT`. -/
def dnsSrcPort : UInt16 := 5353

/-- Who a datagram is handed to. -/
inductive Receiver where
  | sock (i : Fin 32)
  | resolver
  deriving DecidableEq

namespace Sockets
variable (s : Sockets)

def init : Sockets := ⟨fun _ => ⟨.none, false, 0, 0, 0⟩, [], 49152, true⟩

def set (i : Fin 32) (k : Sock) : Sockets := { s with socks := update s.socks i k }

/-- `udp_bind`. -/
def udpBind (port : UInt16) (cb : RecvCb) : Sockets × Bool :=
  if s.bindings.length < 16 then ({ s with bindings := s.bindings ++ [⟨port, cb⟩] }, true)
  else (s, false)

def sockGet (fd : ℤ) : Option (Fin 32) :=
  (finRange 32).find? fun i => decide ((i : ℤ) = fd) && (s.socks i).active

/-- `net_socket`. -/
def netSocket (type : SockType) : Sockets × ℤ :=
  match (finRange 32).find? fun i => !(s.socks i).active with
  | .none => (s, -1)
  | some i => (s.set i ⟨type, true, 0, 0, 0⟩, i)

/-- `net_bind`. -/
def netBind (fd : ℤ) (port : UInt16) : Sockets × ℤ :=
  match s.sockGet fd with
  | .none => (s, -1)
  | some i =>
    let s' := s.set i { s.socks i with localPort := port }
    if (s.socks i).type = .udp then
      let r := s'.udpBind port .socket
      (r.1, if r.2 then 0 else -1)
    else (s', 0)

/-- The choice of a local port in `net_connect`. -/
def autoPort (i : Fin 32) : Sockets :=
  if (s.socks i).localPort = 0 then
    let s' := { s.set i { s.socks i with localPort := s.nextEphemeral } with
      nextEphemeral := s.nextEphemeral + 1 }
    if (s.socks i).type = .udp then (s'.udpBind s.nextEphemeral .socket).1 else s'
  else s

/-- `net_connect`; `tcp` is whether the TCP layer makes a connection, and whether it is
established in time. -/
def netConnect (fd : ℤ) (ip : UInt32) (port : UInt16) (tcp : Option Bool) : Sockets × ℤ :=
  match s.sockGet fd with
  | .none => (s, -1)
  | some i =>
    if s.iface = false then (s, -1)
    else
      let s' := s.autoPort i
      let linked := s'.set i { s'.socks i with remoteIp := ip, remotePort := port }
      match (s.socks i).type, tcp with
      | .udp, _ => (linked, 0)
      | .tcp, some connected => (linked, if connected then 0 else -1)
      | _, _ => (s', -1)

/-- `net_socket_close`. -/
def netSocketClose (fd : ℤ) : Sockets :=
  match s.sockGet fd with
  | .none => s
  | some i => s.set i { s.socks i with active := false }

/-- `dns_resolve`, up to its query. -/
def dnsResolve : Sockets := if s.iface then (s.udpBind dnsSrcPort .dns).1 else s

/-- The dispatch of `udp_input`, with the search of `socket_udp_recv_cb`. -/
def udpInput (srcIp : UInt32) (srcPort dstPort : UInt16) : Option Receiver :=
  match s.bindings.find? fun b => b.port = dstPort with
  | .none => .none
  | some ⟨_, .dns⟩ => some .resolver
  | some ⟨_, .socket⟩ => ((finRange 32).find? fun i => (s.socks i).active &&
      decide ((s.socks i).type = .udp) && decide ((s.socks i).localPort = dstPort) &&
        (s.socks i).takes srcIp srcPort).map .sock

end Sockets

inductive SockCall where
  | socket (type : SockType)
  | bind (fd : ℤ) (port : UInt16)
  | connect (fd : ℤ) (ip : UInt32) (port : UInt16) (tcp : Option Bool)
  | close (fd : ℤ)
  | resolve

def Sockets.exec (s : Sockets) : SockCall → Sockets
  | .socket type => (s.netSocket type).1
  | .bind fd port => (s.netBind fd port).1
  | .connect fd ip port tcp => (s.netConnect fd ip port tcp).1
  | .close fd => s.netSocketClose fd
  | .resolve => s.dnsResolve

/-- A live UDP socket owns the port it is bound to. -/
def Sock.Owns (k : Sock) (p : UInt16) : Prop :=
  k.active = true ∧ k.type = .udp ∧ k.localPort = p ∧ p ≠ 0
deriving Decidable

/-- A port is owned by sockets, or by the resolver once its port is bound. -/
def Sockets.Owns (s : Sockets) (p : UInt16) : Receiver → Prop
  | .sock i => (s.socks i).Owns p
  | .resolver => p = dnsSrcPort ∧ ∃ b ∈ s.bindings, b.cb = .dns

def Sockets.Takes (s : Sockets) (srcIp : UInt32) (srcPort : UInt16) : Receiver → Prop
  | .sock i => (s.socks i).takes srcIp srcPort
  | .resolver => True

/-- The condition on a call: a UDP socket is bound to a port below the automatic ones, not that of
the resolver, that no other live socket has; the automatic ports are not used up; and a binding is
left. -/
def Sockets.Fits (s : Sockets) : SockCall → Prop
  | .bind fd port => ∀ i, s.sockGet fd = some i → (s.socks i).type = .udp →
      (port ≠ 0 ∧ port.toNat < 49152 ∧ port ≠ dnsSrcPort) ∧ s.bindings.length < 16 ∧
        ∀ j, j ≠ i → ¬ (s.socks j).Owns port
  | .connect fd _ _ _ => ∀ i, s.sockGet fd = some i → (s.socks i).localPort = 0 →
      s.nextEphemeral ≠ 0 ∧ ((s.socks i).type = .udp → s.bindings.length < 16)
  | _ => True

def Sockets.FitsAll (s : Sockets) : List SockCall → Prop
  | [] => True
  | c :: cs => s.Fits c ∧ (s.exec c).FitsAll cs

def Sockets.run (s : Sockets) (cs : List SockCall) : Sockets := cs.foldl Sockets.exec s

/-- The port is bound, and below the automatic ones still to come. -/
def Sockets.Bound (s : Sockets) (p : UInt16) : Prop :=
  ⟨p, .socket⟩ ∈ s.bindings ∧ (s.nextEphemeral ≠ 0 → p.toNat < s.nextEphemeral.toNat)

/-- Every binding is for a port and has the right callback, and the live sockets have different
ports, which are bound. -/
structure PortsOk (s : Sockets) : Prop where
  kind : ∀ b ∈ s.bindings, b.port ≠ 0 ∧ (b.port = dnsSrcPort ↔ b.cb = .dns)
  entry : ∀ i p, (s.socks i).Owns p → s.Bound p
  alone : ∀ i j p, (s.socks i).Owns p → (s.socks j).Owns p → i = j
  range : s.nextEphemeral ≠ 0 → 49152 ≤ s.nextEphemeral.toNat

section
variable {s : Sockets} {i j : Fin 32} {k : Sock} {p : UInt16} {b : Binding}

theorem PortsOk.owner (h : PortsOk s) {r r' : Receiver} (hr : s.Owns p r) (hr' : s.Owns p r') :
    r = r' := by
  have hne : ∀ i, (s.socks i).Owns p → p ≠ dnsSrcPort := by
    rintro i ho rfl
    cases (h.kind _ (h.entry i _ ho).1).2.mp rfl
  cases r with
  | sock i =>
    cases r' with
    | sock j => rw [h.alone i j p hr hr']
    | resolver => exact absurd hr'.1 (hne i hr)
  | resolver =>
    cases r' with
    | sock j => exact absurd hr.1 (hne j hr')
    | resolver => rfl

theorem PortsOk.udpInput_iff (h : PortsOk s) (srcIp : UInt32) (srcPort : UInt16) (r : Receiver) :
    s.udpInput srcIp srcPort p = some r ↔ s.Owns p r ∧ s.Takes srcIp srcPort r := by
  unfold Sockets.udpInput
  cases hf : s.bindings.find? fun b => b.port = p with
  | none =>
    have hnone : ∀ b ∈ s.bindings, b.port ≠ p := by simpa using find?_eq_none.mp hf
    refine iff_of_false nofun fun ho => ?_
    cases r with
    | sock i => exact hnone _ (h.entry i p ho.1).1 rfl
    | resolver =>
      obtain ⟨⟨rfl, b, hb, hcb⟩, -⟩ := ho
      exact hnone b hb ((h.kind b hb).2.mpr hcb)
  | some b =>
    have hb := mem_of_find?_eq_some hf
    obtain rfl : b.port = p := by simpa using find?_some hf
    obtain ⟨port, cb⟩ := b
    cases cb with
    | dns =>
      have hdns : s.Owns port .resolver := ⟨(h.kind _ hb).2.mpr rfl, _, hb, rfl⟩
      constructor
      · rintro ⟨⟩
        exact ⟨hdns, trivial⟩
      · exact fun hr => congrArg some (h.owner hdns hr.1)
    | socket =>
      dsimp only
      have hfind : ∀ i, ((s.socks i).active && decide ((s.socks i).type = .udp) &&
          decide ((s.socks i).localPort = port) && (s.socks i).takes srcIp srcPort) ↔
          (s.socks i).Owns port ∧ (s.socks i).takes srcIp srcPort := fun i => by
        simp [Sock.Owns, (h.kind _ hb).1, and_assoc]
      constructor
      · intro hr
        obtain ⟨i, hi, rfl⟩ := Option.map_eq_some_iff.mp hr
        have hp := find?_some hi
        exact (hfind i).mp hp
      rintro ⟨ho, htakes⟩
      cases r with
      | resolver => cases (h.kind _ hb).2.mp ho.1
      | sock i =>
        cases hi : (finRange 32).find? fun i => (s.socks i).active &&
            decide ((s.socks i).type = .udp) && decide ((s.socks i).localPort = port) &&
              (s.socks i).takes srcIp srcPort with
        | none =>
          exact absurd ((hfind i).mpr ⟨ho, htakes⟩)
            (find?_eq_none.mp hi i (mem_finRange i))
        | some j =>
          have hp := find?_some hi
          rw [h.alone i j port ho ((hfind j).mp hp).1]
          rfl

/-! ### Steps -/

section
variable (h : PortsOk s)
include h

/-- One socket changes. If it is a live UDP socket, its port is bound and only its own. -/
theorem PortsOk.set (hk : ∀ p, k.Owns p → s.Bound p)
    (hother : ∀ p, k.Owns p → ∀ j ≠ i, ¬ (s.socks j).Owns p) : PortsOk (s.set i k) := by
  have hself : (s.set i k).socks i = k := update_self ..
  have hne : ∀ {j}, j ≠ i → (s.set i k).socks j = s.socks j := fun hj => update_of_ne hj ..
  refine ⟨h.kind, (forall_update_iff s.socks fun _ k => ∀ p, k.Owns p → s.Bound p).mpr
    ⟨hk, fun j _ => h.entry j⟩, fun j j' p ho ho' => ?_, h.range⟩
  by_cases hj : j = i
  · subst hj
    by_contra hjj
    rw [hself] at ho
    rw [hne (Ne.symm hjj)] at ho'
    exact hother p ho j' (Ne.symm hjj) ho'
  rw [hne hj] at ho
  by_cases hj' : j' = i
  · subst hj'
    rw [hself] at ho'
    exact absurd ho (hother p ho' j hj)
  · rw [hne hj'] at ho'
    exact h.alone j j' p ho ho'

/-- A socket changes, but not its port. -/
theorem PortsOk.keep (hk : ∀ p, k.Owns p → (s.socks i).Owns p) : PortsOk (s.set i k) :=
  h.set (fun p ho => h.entry i p (hk p ho)) fun p ho j hj hoj => hj (h.alone j i p hoj (hk p ho))

theorem PortsOk.bind (hb : b.port ≠ 0 ∧ (b.port = dnsSrcPort ↔ b.cb = .dns)) :
    PortsOk { s with bindings := s.bindings ++ [b] } := by
  refine ⟨fun b' hb' => ?_, fun i p ho => ?_, h.alone, h.range⟩
  · rcases mem_append.mp hb' with hb' | hb'
    · exact h.kind b' hb'
    · rwa [mem_singleton.mp hb']
  · exact ⟨mem_append_left _ (h.entry i p ho).1, (h.entry i p ho).2⟩

theorem PortsOk.nextPort (hn : s.nextEphemeral ≠ 0) :
    PortsOk { s with nextEphemeral := s.nextEphemeral + 1 } ∧ (s.nextEphemeral + 1 ≠ 0 →
      (s.nextEphemeral + 1).toNat = s.nextEphemeral.toNat + 1) := by
  have hlo := h.range hn
  have hsucc : s.nextEphemeral + 1 ≠ 0 →
      (s.nextEphemeral + 1).toNat = s.nextEphemeral.toNat + 1 := by
    intro h0
    have h1 : (s.nextEphemeral + 1).toNat ≠ 0 := fun he => h0 (UInt16.toNat_inj.mp he)
    have := s.nextEphemeral.toNat_lt
    rw [UInt16.toNat_add] at h1 ⊢
    have : UInt16.toNat 1 = 1 := rfl
    omega
  refine ⟨⟨h.kind, fun i p ho => ⟨(h.entry i p ho).1, fun h0 => ?_⟩, h.alone, fun h0 => ?_⟩, hsucc⟩
  · have := (h.entry i p ho).2 hn
    rw [hsucc h0]
    omega
  · rw [hsucc h0]
    omega

theorem PortsOk.autoPort (i : Fin 32) (hf : (s.socks i).localPort = 0 →
    s.nextEphemeral ≠ 0 ∧ ((s.socks i).type = .udp → s.bindings.length < 16)) :
    PortsOk (s.autoPort i) := by
  unfold Sockets.autoPort
  split_ifs with h0 ht
  · obtain ⟨hn, hroom⟩ := hf h0
    obtain ⟨hnext, hsucc⟩ := h.nextPort hn
    have hlo := h.range hn
    have hdns : s.nextEphemeral ≠ dnsSrcPort := fun he => by
      rw [he] at hlo
      exact absurd hlo (by decide)
    have hbind : (s.set i { s.socks i with localPort := s.nextEphemeral }).bindings.length < 16 :=
      hroom ht
    unfold Sockets.udpBind
    dsimp only
    rw [if_pos hbind]
    refine (hnext.bind (b := ⟨s.nextEphemeral, .socket⟩) ⟨hn, iff_of_false hdns nofun⟩).set ?_ ?_
    · rintro p ⟨-, -, rfl, -⟩
      refine ⟨mem_append_right _ (mem_singleton_self _), fun h0 => ?_⟩
      rw [hsucc h0]
      exact Nat.lt_succ_self _
    · rintro p ⟨-, -, rfl, -⟩ j - ho
      exact ((h.entry j _ ho).2 hn).false
  · exact (h.nextPort (hf h0).1).1.set (fun p ho => absurd ho.2.1 ht) fun p ho => absurd ho.2.1 ht
  · exact h

theorem PortsOk.exec {c : SockCall} (hf : s.Fits c) : PortsOk (s.exec c) := by
  cases c with
  | socket type =>
    unfold Sockets.exec Sockets.netSocket
    dsimp only
    split
    · exact h
    · exact h.keep fun p ho => absurd ho.2.2.1.symm ho.2.2.2
  | bind fd port =>
    unfold Sockets.exec Sockets.netBind
    dsimp only
    cases hi : s.sockGet fd with
    | none => exact h
    | some i =>
      dsimp only
      by_cases ht : (s.socks i).type = .udp
      · obtain ⟨⟨h0, hhi, hdns⟩, hroom, hother⟩ := hf i hi ht
        have hbind : (s.set i { s.socks i with localPort := port }).bindings.length < 16 := hroom
        rw [if_pos ht, Sockets.udpBind, if_pos hbind]
        refine (h.bind (b := ⟨port, .socket⟩) ⟨h0, iff_of_false hdns nofun⟩).set ?_ ?_
        · rintro p ⟨-, -, rfl, -⟩
          exact ⟨mem_append_right _ (mem_singleton_self _), fun hn => hhi.trans_le (h.range hn)⟩
        · rintro p ⟨-, -, rfl, -⟩
          exact hother
      · rw [if_neg ht]
        exact h.set (fun p ho => absurd ho.2.1 ht) fun p ho => absurd ho.2.1 ht
  | connect fd ip port tcp =>
    unfold Sockets.exec Sockets.netConnect
    dsimp only
    cases hi : s.sockGet fd with
    | none => exact h
    | some i =>
      dsimp only
      split_ifs
      · exact h
      have hauto := h.autoPort i (hf i hi)
      split
      · exact hauto.keep fun p => id
      · exact hauto.keep fun p => id
      · exact hauto
  | close fd =>
    unfold Sockets.exec Sockets.netSocketClose
    dsimp only
    split
    · exact h
    · exact h.keep fun p ho => absurd ho.1 nofun
  | resolve =>
    unfold Sockets.exec Sockets.dnsResolve Sockets.udpBind
    dsimp only
    split_ifs
    · exact h.bind ⟨by decide, iff_of_true rfl rfl⟩
    · exact h
    · exact h

theorem PortsOk.run {cs : List SockCall} (hf : s.FitsAll cs) : PortsOk (s.run cs) := by
  induction cs generalizing s with
  | nil => exact h
  | cons c cs ih => exact ih (h.exec hf.1) hf.2

end

theorem portsOk_init : PortsOk .init :=
  ⟨nofun, fun _ _ ho => absurd ho.1 nofun, fun _ _ _ ho => absurd ho.1 nofun, by decide⟩

/-- `net_socket_close` on every descriptor. -/
def Sockets.closeAll (s : Sockets) : Sockets :=
  (range 32).foldl (fun s (fd : ℕ) => s.netSocketClose fd) s

theorem Sockets.closeAll_bindings (s : Sockets) : s.closeAll.bindings = s.bindings := by
  unfold Sockets.closeAll
  generalize range 32 = fds
  induction fds generalizing s with
  | nil => rfl
  | cons fd fds ih =>
    rw [foldl_cons, ih]
    unfold Sockets.netSocketClose
    split <;> rfl

/-- After every run of calls that meet the condition, a port has one owner, who gets its datagrams
and no other; the next automatic port is nobody's; and closing every socket frees the bindings if
there are none. -/
theorem udp_run {cs : List SockCall} (hf : Sockets.init.FitsAll cs) {s : Sockets}
    (hs : s = Sockets.init.run cs) :
    (∀ p r r', s.Owns p r → s.Owns p r' → r = r') ∧
    (∀ srcIp srcPort p r,
      s.udpInput srcIp srcPort p = some r ↔ s.Owns p r ∧ s.Takes srcIp srcPort r) ∧
    (s.nextEphemeral ≠ 0 → ∀ r, ¬ s.Owns s.nextEphemeral r) ∧
    (s.closeAll.bindings = [] ↔ s.bindings = []) := by
  have h : PortsOk s := hs ▸ portsOk_init.run hf
  refine ⟨fun p r r' => h.owner, fun srcIp srcPort p => h.udpInput_iff srcIp srcPort,
    fun hn r ho => ?_, by rw [Sockets.closeAll_bindings]⟩
  cases r with
  | sock i => exact ((h.entry i _ ho).2 hn).false
  | resolver =>
    have hlo := h.range hn
    rw [ho.1] at hlo
    exact absurd hlo (by decide)

end

/-- A socket is bound, and datagrams to its port reach it. -/
theorem bound_socket_receives : let s := Sockets.init.run [.socket .udp, .bind 0 53, .resolve]
    (s.socks 0).Owns 53 ∧ s.udpInput 0x0A000203 123 53 = some (.sock 0) := by
  have hf : Sockets.init.FitsAll [.socket .udp, .bind 0 53, .resolve] := by
    refine ⟨trivial, ?_, trivial, trivial⟩
    unfold Sockets.Fits
    decide
  have ho : ((Sockets.init.run [.socket .udp, .bind 0 53, .resolve]).socks 0).Owns 53 := by
    decide
  exact ⟨ho, ((udp_run hf rfl).2.1 _ _ 53 (.sock 0)).mpr ⟨ho, rfl⟩⟩

/-- Two sockets share port 53, and a binding is left when all sockets are closed. -/
theorem udp_port_shared : (∀ i ∈ [0, 1], ((Sockets.init.run
      [.socket .udp, .socket .udp, .bind 0 53, .bind 1 53]).socks i).Owns 53) ∧
    (Sockets.init.run [.socket .udp, .bind 0 53]).closeAll.bindings = [⟨53, .socket⟩] := by
  decide +kernel

end Exploidus.Net
