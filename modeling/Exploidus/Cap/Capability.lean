import Exploidus.Crypto.Blake3

/-! Capability tokens: minting, validation, delegation, the revocation table, and the system calls
through which processes reach them. -/
namespace Exploidus.Cap

abbrev Word := BitVec 64
abbrev Pid := BitVec 32

/-- `cap_token_t`. The authenticator may be of any type, so that it can be taken to be ideal. -/
structure Token (L : Type) where
  upper : Word
  lower : L
  deriving DecidableEq, Repr

/-- `CAP_RIGHT_DELEGATE`. -/
def rightDelegate : Word := 1 <<< 4
/-- `CAP_RIGHT_REVOKE`. -/
def rightRevoke : Word := 1 <<< 5
/-- `CAP_RES_KERNEL`. -/
def resKernel : Word := 5

/-- `REVOKE_TABLE_INITIAL_CAPACITY`. -/
def initialCapacity : ℕ := 256
/-- `REVOKE_TABLE_MAX_CAPACITY`. -/
def maxCapacity : ℕ := 65536

def wordBytes {w : ℕ} (n : ℕ) (x : BitVec w) : List UInt8 :=
  (List.range n).map fun i => UInt8.ofNat (x >>> (8 * i)).toNat

/-- `build_lower` with the kernel's secret: the first eight bytes of a BLAKE3 digest. -/
def buildLower (secret : List UInt8) (upper : Word) (pid : Pid) : Word :=
  let digest := Blake3.hash (wordBytes 8 upper ++ wordBytes 4 pid ++ secret)
  (List.range 8).foldl
    (fun acc i => acc ||| (BitVec.ofNat 64 (digest.getD i 0).toNat <<< (8 * i))) 0

namespace Token
variable {L : Type}

/-- Bits 15:0. -/
def rights (t : Token L) : Word := t.upper &&& 0xFFFF
def resId (t : Token L) : Word := (t.upper >>> 16) &&& 0xFFFFFFFF
/-- Bits 63:48. -/
def res (t : Token L) : Word := (t.upper >>> 48) &&& 0xFFFF

/-- `CAP_NULL`. -/
def null [Zero L] : Token L := ⟨0, 0⟩

end Token

/-- The revocation table: the memory it occupies, the entries in use and those that fit. -/
structure Revoked (L : Type) where
  table : ℕ → Token L
  count : ℕ
  capacity : ℕ

section
variable {L : Type} [DecidableEq L] [Zero L]

/-- The table after `cap_subsystem_init`. -/
def Revoked.init : Revoked L := ⟨fun _ => Token.null, 0, 0⟩

def Revoked.contains (r : Revoked L) (t : Token L) : Bool :=
  (List.range r.count).any fun i => r.table i = t

/-- `revoke_table_ensure_capacity`; `block` is the block that `kmalloc` returns. -/
def Revoked.ensureCapacity (r : Revoked L) (block : Option (ℕ → Token L)) : Option (Revoked L) :=
  if r.count < r.capacity then some r
  else if maxCapacity ≤ r.capacity then none
  else match block with
    | none => none
    | some block => some
        { table := fun i => if i < r.count then r.table i else block i
          count := r.count
          capacity := min (if r.capacity = 0 then initialCapacity else r.capacity * 2) maxCapacity }

/-- The entry that `cap_revoke` writes. -/
def Revoked.append (r : Revoked L) (t : Token L) : Revoked L :=
  { r with table := Function.update r.table r.count t, count := r.count + 1 }

variable (mac : Word → Pid → L)

/-- `cap_create`. -/
def capCreate (res resId : BitVec 32) (rights : Word) (owner : Pid) : Token L :=
  let upper := ((res &&& 0xFFFF).setWidth 64 <<< 48) ||| (resId.setWidth 64 <<< 16) |||
    (rights &&& 0xFFFF)
  ⟨upper, mac upper owner⟩

/-- `cap_validate`. -/
def capValidate (r : Revoked L) (t : Token L) (pid : Pid) (required : Word) : Bool :=
  if t = Token.null then false
  else if mac t.upper pid ≠ t.lower then false
  else if r.contains t then false
  else decide (t.rights &&& required = required)

/-- `cap_revoke`. -/
def capRevoke (r : Revoked L) (authority target : Token L) (revoker : Pid)
    (block : Option (ℕ → Token L)) : Revoked L × Bool :=
  if capValidate mac r authority revoker rightRevoke = false then (r, false)
  else if authority.res ≠ resKernel ∧ authority.res ≠ target.res then (r, false)
  else if target = Token.null then (r, false)
  else if r.contains target then (r, true)
  else match r.ensureCapacity block with
    | none => (r, false)
    | some r => (r.append target, true)

/-- `cap_delegate`. -/
def capDelegate (r : Revoked L) (src : Token L) (srcPid target : Pid) (subset : Word) : Token L :=
  if capValidate mac r src srcPid rightDelegate = false then Token.null
  else
    let upper := (src.upper &&& ~~~0xFFFF) ||| (src.rights &&& subset)
    ⟨upper, mac upper target⟩

/-! ### System calls -/

/-- The calls a process can make. `check` is any call that passes a token to `broker_check`; a
`revoke` carries the block that `kmalloc` would return. -/
inductive Call (L : Type) where
  | create (res resId rights owner : Word)
  | delegate (src : Token L) (target subset : Word)
  | revoke (authority target : Token L) (block : Option (ℕ → Token L))
  | check (token : Token L) (required : Word)

/-- What a call gives back: an error, a token, or success. -/
inductive Reply (L : Type) where
  | fail
  | token (t : Token L)
  | ok
  deriving DecidableEq, Repr

def Call.presented : Call L → List (Token L)
  | .create _ _ _ _ => []
  | .delegate src _ _ => [src]
  | .revoke authority target _ => [authority, target]
  | .check token _ => [token]

/-- The pid a call of `sys_cap_create_h` mints for. -/
def ownerOf (caller : Pid) (owner : Word) : Pid := if owner = 0 then caller else owner.setWidth 32

/-- `sys_cap_create_h`, `sys_cap_delegate_h`, `sys_cap_revoke_h` and `broker_check` for the process
`caller`. -/
def exec (r : Revoked L) (caller : Pid) : Call L → Revoked L × Reply L
  | .create res resId rights owner =>
    if 2 < caller then (r, .fail)
    else (r, .token (capCreate mac (res.setWidth 32) (resId.setWidth 32) rights
      (ownerOf caller owner)))
  | .delegate src target subset =>
    let d := capDelegate mac r src caller (target.setWidth 32) subset
    if d = Token.null then (r, .fail) else (r, .token d)
  | .revoke authority target block =>
    let out := capRevoke mac r authority target caller block
    (out.1, if out.2 then .ok else .fail)
  | .check token required =>
    (r, if capValidate mac r token caller required then .ok else .fail)

/-- A call that was made: by whom, with which table, and what it returned. -/
structure Event (L : Type) where
  caller : Pid
  call : Call L
  table : Revoked L
  reply : Reply L

/-- The table, and the calls made so far, the last one first. -/
structure History (L : Type) where
  table : Revoked L
  log : List (Event L)

def History.init : History L := ⟨Revoked.init, []⟩

def History.step (h : History L) (c : Pid × Call L) : History L :=
  let out := exec mac h.table c.1 c.2
  ⟨out.1, ⟨c.1, c.2, h.table, out.2⟩ :: h.log⟩

/-- The history after the calls `cs`. -/
def run (cs : List (Pid × Call L)) : History L := cs.foldl (History.step mac) History.init

end
end Exploidus.Cap
