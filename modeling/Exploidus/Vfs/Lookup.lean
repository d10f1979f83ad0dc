import Exploidus.Exfs.Mount

/-! The virtual file system: mounts, node objects, and the resolution of paths to nodes.

A path is the bytes of a C string without its terminator. Every mounted file system is an ExFS
volume. Node objects are numbered in the order of their allocation, which succeeds; an object that
has been passed to `kfree` keeps its last content and is listed in `released`. -/
namespace Exploidus.Vfs
open Exfs Function

/-- A `vfs_node_t` with its `fs_data`: the volume, the driver's node and the parent pointer. -/
structure Vnode where
  vol : ℕ
  node : Node
  parent : Option ℕ

/-- `mount_entry_t`; an entry below `g_mount_count` is active. -/
structure Mount where
  mountpoint : List UInt8
  root : ℕ

/-- `fd_entry_t` of an active descriptor. -/
structure Fd where
  node : ℕ
  offset : UInt64
  ownerPid : UInt32

/-- The globals of `vfs.c`, the node objects and the mounted volumes. -/
structure State where
  volumes : ℕ → Volume
  nodes : ℕ → Vnode
  fresh : ℕ
  released : List ℕ
  mounts : List Mount
  fds : ℕ → Option Fd
  cwd : Option ℕ

def slash : UInt8 := 47

namespace State

def newNode (s : State) (v : Vnode) : State × ℕ :=
  ({ s with nodes := update s.nodes s.fresh v, fresh := s.fresh + 1 }, s.fresh)

/-- `kfree(node->fs_data); kfree(node);` -/
def kfree (s : State) (n : ℕ) : State := { s with released := s.released ++ [n] }

/-- `kfree` unless the node is a mount root, whose parent pointer is `NULL`. -/
def freeChild (s : State) (n : ℕ) : State := if (s.nodes n).parent.isSome then s.kfree n else s

/-- What a driver operation through node `n` leaves: its volume and the private node data. -/
def after (s : State) (n : ℕ) (vol : Volume) (node : Node) : State :=
  { s with
    volumes := update s.volumes (s.nodes n).vol vol
    nodes := update s.nodes n { s.nodes n with node := node } }

def volOf (s : State) (n : ℕ) : Volume := s.volumes (s.nodes n).vol

/-- `node->ops->lookup`: a fresh child node that points back to `dir`. -/
def lookupIn (s : State) (dir : ℕ) (name : List UInt8) : State × Option ℕ :=
  match (s.volOf dir).opLookup (s.nodes dir).node name with
  | none => (s, none)
  | some child =>
    let r := s.newNode ⟨(s.nodes dir).vol, child, some dir⟩
    (r.1, some r.2)

/-- `node->ops->read`. -/
def readNode (s : State) (n : ℕ) (off len : ℕ) : State × List UInt8 :=
  let r := (s.volOf n).opRead (s.nodes n).node off len
  (s.after n r.1 r.2.1, r.2.2)

end State

/-- The mount `vfs_lookup_impl` takes: the first of the longest mount points whose bytes begin
the path. -/
def bestMount (mounts : List Mount) (path : List UInt8) : Option Mount :=
  mounts.foldl (fun best m =>
    if m.mountpoint = [] ∨ ¬ m.mountpoint <+: path then best
    else match best with
      | none => some m
      | some b => if b.mountpoint.length < m.mountpoint.length then some m else best) none

/-- The path of the next round after a symlink: 250 bytes of the target, then the rest of the old
path, at most 299 bytes in all. -/
def combined (target rest : List UInt8) : List UInt8 := (target.take 250 ++ rest).take 299

/-- How the walk through one mount ends: with a node or `NULL`, or at a symlink. -/
inductive Walked where
  | found (n : Option ℕ)
  | hop (path : List UInt8)

namespace State

/-- The loop of `vfs_lookup_impl` below the mount root `root`, with `cur` past any slashes. Each
turn consumes at least one byte. -/
def walk (root : ℕ) (followLast : Bool) : ℕ → State → ℕ → List UInt8 → State × Walked
  | 0, s, node, _ => (s, .found (some node))
  | fuel + 1, s, node, cur =>
    if cur = [] then (s, .found (some node))
    else
      let component := cur.takeWhile (· ≠ slash)
      let rest := cur.dropWhile (· ≠ slash)
      if 255 < component.length then (s, .found none)
      else
        let r := s.lookupIn node component
        let s := if node = root then r.1 else r.1.kfree node
        match r.2 with
        | none => (s, .found none)
        | some next =>
          if (s.nodes next).node.type = .symlink ∧ (rest ≠ [] ∨ followLast) then
            let t := s.readNode next 0 255
            let s := t.1.freeChild next
            let target := t.2.takeWhile (· ≠ 0)
            -- an empty, unreadable or relative target
            if target.head? ≠ some slash then (s, .found none)
            else (s, .hop (combined target rest))
          else walk root followLast fuel s next (rest.dropWhile (· = slash))

/-- `vfs_lookup_impl` with the given number of rounds left. -/
def lookupImpl (followLast : Bool) : ℕ → State → List UInt8 → State × Option ℕ
  | 0, s, _ => (s, none)
  | rounds + 1, s, path =>
    if path.head? ≠ some slash then (s, none)
    else match bestMount s.mounts path with
      | none => (s, none)
      | some m =>
        let r := walk m.root followLast path.length s m.root
          ((path.drop m.mountpoint.length).dropWhile (· = slash))
        match r.2 with
        | .found n => (r.1, n)
        | .hop next => lookupImpl followLast rounds r.1 next

/-- `vfs_lookup`; a depth above 8 is refused. -/
def lookup (s : State) (path : List UInt8) : State × Option ℕ := lookupImpl true 9 s path

/-- `vfs_lookup_link`. -/
def lookupLink (s : State) (path : List UInt8) : State × Option ℕ := lookupImpl false 9 s path

end State

end Exploidus.Vfs
