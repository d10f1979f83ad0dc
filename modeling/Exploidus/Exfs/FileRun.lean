import Exploidus.Exfs.Content
import Exploidus.Exfs.Run

/-! Sequences of writes through one handle, next to the byte array they are applied to. -/
namespace Exploidus.Exfs
open Refs

/-- A file open through one handle, and the array of the bytes written so far. -/
structure OpenFile where
  vol : Volume
  node : Node
  ref : List UInt8

/-- `exfs_op_write` through the handle; the array takes the bytes the call reports as written. -/
def OpenFile.write (f : OpenFile) (off : UInt64) (data : List UInt8) : OpenFile :=
  let r := f.vol.opWrite f.node off.toNat data
  ⟨r.1, r.2.1, overlay f.ref off.toNat (data.take r.2.2)⟩

def OpenFile.writes (f : OpenFile) (ws : List (UInt64 × List UInt8)) : OpenFile :=
  ws.foldl (fun f w => f.write w.1 w.2) f

/-- No write of the sequence leaves a gap that does not read as zeros. -/
def WritesOk (g : Superblock) (f : OpenFile) : List (UInt64 × List UInt8) → Prop
  | [] => True
  | w :: ws => WriteOk g f.vol f.node.inode w.1.toNat w.2 ∧ WritesOk g (f.write w.1 w.2) ws

structure OpenFile.Reads (g : Superblock) (f : OpenFile) : Prop where
  rest : Rest g f.vol
  current : Current g f.vol.disk f.node
  content : Content f.vol.disk f.node.inode f.ref

section
variable {g : Superblock} {f : OpenFile} {ws : List (UInt64 × List UInt8)}

theorem OpenFile.Reads.write (h : f.Reads g) {off : UInt64} {data : List UInt8}
    (hok : WriteOk g f.vol f.node.inode off.toNat data) : (f.write off data).Reads g := by
  have hw := h.rest.opWrite h.current.bound h.current.agrees off.toNat data rfl rfl
  exact ⟨hw.step.rest, hw.current h.current, h.content.opWrite h.rest h.current hok rfl⟩

theorem OpenFile.Reads.writes (h : f.Reads g) (hok : WritesOk g f ws) : (f.writes ws).Reads g := by
  induction ws generalizing f with
  | nil => exact h
  | cons w ws ih => exact ih (h.write hok.1) hok.2

/-- On a volume left by a run whose calls meet the condition, a handle that is up to date and
whose file reads as `ref`: after any writes that leave no bad gap, a read returns as many bytes as
asked for and there are, and they are those of the array with the writes applied. -/
theorem writes_then_read {s : Fs} {cs : List Call} {node : Node} {ref : List UInt8}
    (hs : Start g s) (hm : MeetsAll g s cs) (hcur : Current g (run s cs).vol.disk node)
    (hc : Content (run s cs).vol.disk node.inode ref)
    (hok : WritesOk g ⟨(run s cs).vol, node, ref⟩ ws)
    (hf : f = OpenFile.writes ⟨(run s cs).vol, node, ref⟩ ws) {off len : UInt64}
    (hlen : off.toNat + len.toNat < 2 ^ 64 ∨ f.ref.length ≤ off.toNat) :
    f.node.inode.size.toNat = f.ref.length ∧
    (f.vol.opRead f.node off.toNat len.toNat).2.2 = (f.ref.drop off.toNat).take len.toNat ∧
    (f.vol.opRead f.node off.toNat len.toNat).2.2.length =
      min len.toNat (f.node.inode.size.toNat - off.toNat) := by
  have hreads : f.Reads g := by
    rw [hf]
    exact OpenFile.Reads.writes ⟨(hs.consistent.run hm).consistent.rest, hcur, hc⟩ hok
  have hread := hreads.content.opRead hlen
  refine ⟨hreads.content.size, hread, ?_⟩
  rw [hread, List.length_take, List.length_drop, hreads.content.size]

def sampleCreate : List Call := [.create 0 [102] 0 0 0]

def sampleNode : Node := (run sampleFs sampleCreate).nodes.getD 1 freshRoot

def sampleWrites : List (UInt64 × List UInt8) := [(0, [104, 105]), (1, [33])]

def sampleFile : OpenFile :=
  OpenFile.writes ⟨(run sampleFs sampleCreate).vol, sampleNode, []⟩ sampleWrites

theorem sampleFile_read : sampleFile.node.inode.size.toNat = sampleFile.ref.length ∧
    (sampleFile.vol.opRead sampleFile.node (0 : UInt64).toNat (9 : UInt64).toNat).2.2 =
      [104, 33] := by
  have hcur : Current sampleSuperblock (run sampleFs sampleCreate).vol.disk sampleNode ∧
      sampleNode.inode.size.toNat = 0 := by
    decide +kernel
  have href : (sampleFile.ref.drop (0 : UInt64).toNat).take (9 : UInt64).toNat = [104, 33] := by
    decide +kernel
  have hc : Content (run sampleFs sampleCreate).vol.disk sampleNode.inode [] :=
    ⟨hcur.2, fun x hx => absurd hx (Nat.not_lt_zero x)⟩
  have hok : WritesOk sampleSuperblock ⟨(run sampleFs sampleCreate).vol, sampleNode, []⟩
      sampleWrites := ⟨.inl (Nat.zero_le _), .inl (by decide +kernel), trivial⟩
  have hm : MeetsAll sampleSuperblock sampleFs sampleCreate := ⟨sampleCreate_meets, trivial⟩
  have hlen : (0 : UInt64).toNat + (9 : UInt64).toNat < 2 ^ 64 := by decide
  obtain ⟨hlen, hread, -⟩ := writes_then_read sampleFs_start hm hcur.1 hc hok
    sampleFile.eq_def (.inl hlen)
  exact ⟨hlen, hread.trans href⟩

def recycleCalls : List Call :=
  [.create 0 [102] 0 0 0, .write 1 0 [115, 101, 99, 114, 101, 116], .unlink 0 [102],
    .create 0 [103] 0 0 0]

/-- A write at offset 3 of the new file exposes three bytes of the removed one, and after a write
at offset 8192 nothing is read at offset 0. -/
theorem recycleCalls_gap_read : ∃ node ∈ (run sampleFs recycleCalls).nodes[2]?,
      node.inode.size = 0 ∧
      (OpenFile.write ⟨(run sampleFs recycleCalls).vol, node, []⟩ 3 [33]).ref = [0, 0, 0, 33] ∧
      ((OpenFile.write ⟨(run sampleFs recycleCalls).vol, node, []⟩ 3 [33]).vol.opRead
        (OpenFile.write ⟨(run sampleFs recycleCalls).vol, node, []⟩ 3 [33]).node 0 4).2.2 =
          [115, 101, 99, 33] ∧
      (OpenFile.write ⟨(run sampleFs recycleCalls).vol, node, []⟩ 8192 [33]).node.inode.size
        = 8193 ∧
      ((OpenFile.write ⟨(run sampleFs recycleCalls).vol, node, []⟩ 8192 [33]).vol.opRead
        (OpenFile.write ⟨(run sampleFs recycleCalls).vol, node, []⟩ 8192 [33]).node 0 1).2.2 =
          [] := by
  decide +kernel

end

end Exploidus.Exfs
