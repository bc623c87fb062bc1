import OptLrc.Repair
import OptLrc.Writes

namespace OptLrc.Updates

open OptLrc.Galois OptLrc.Memory OptLrc.Jerasure OptLrc.Encoder OptLrc.Process OptLrc.Memcached
open OptLrc.Exchange OptLrc.Storage OptLrc.Retrieval OptLrc.Repair OptLrc.Sync OptLrc.Wire OptLrc.Core
open OptLrc.Fetch OptLrc.Stored OptLrc.Writes

variable {σ : Type} {E : Env Request Reply σ} {c : Client} {x : σ} {place : Nat → Nat}

section Replying

variable (hE : Replying E) (hp : Placed c place) (hs : Io.Synced c.serverCount c.io)
include hE hp hs

/-- A delete sends one request, and its status is that of the oldest unread reply of its server. -/
theorem exec_delete_at {key : Key} (hkey : key.length ≤ 248) {index s : Nat} (hnode : c.nodeServer index = .ok s) :
    ∃ rc conn result, (memcachedDeleteByKeyLrc key 0 index).exec E c x =
        (.ok (rc, { c with io := { c.io.set s conn with result := result } }),
          (E.serve s (.delete (blockKey key index)) x).2) ∧
      Conn.Synced conn ∧ readOneResponse ⟨[], (c.io.conn s).inbox ++
        (E.serve s (.delete (blockKey key index)) x).1, (c.io.conn s).responseCount + 1⟩ .reset =
          .ok (rc, conn, result) := by
  have hcount : c.serverCount ≠ 0 := by
    have := hp.core
    omega
  have hnode' : (Client.resetResult c).nodeServer index = .ok s := hnode
  obtain ⟨rc, conn, result, he, hsync, hread⟩ := exec_vdo_response hE (c := Client.resetResult c) (x := x)
    (s := s) (q := .delete (blockKey key index)) (by simp [Request.opcode]) (hs.conn s)
  refine ⟨rc, conn, result, ?_, hsync, hread⟩
  simp only [memcachedDeleteByKeyLrc, Proc.exec_bind, exec_initializeQuery E c x hcount, ne_eq,
    not_true_eq_false, if_false, keyTest_blockKey hkey, Proc.exec_get, hnode', Proc.exec_lift_ok]
  rw [← Proc.exec_bind]
  exact he

theorem exec_memcachedDeleteByKeyLrc {key : Key} (hkey : key.length ≤ 248) {index : Nat}
    (hi : index < c.numberOfN) :
    ∃ rc io, (memcachedDeleteByKeyLrc key 0 index).exec E c x =
        (.ok (rc, { c with io := io }), (E.serve (place index) (.delete (blockKey key index)) x).2) ∧
      Io.Synced c.serverCount io ∧ ∃ conn result, readOneResponse ⟨[], (c.io.conn (place index)).inbox ++
        (E.serve (place index) (.delete (blockKey key index)) x).1,
        (c.io.conn (place index)).responseCount + 1⟩ .reset = .ok (rc, conn, result) := by
  obtain ⟨rc, conn, result, he, hsync, hread⟩ := exec_delete_at (x := x) hE hp hs hkey (hp.nodeServer hi)
  exact ⟨rc, _, he, synced_set hs hsync (hp.server index hi) result, conn, result, hread⟩

/-- A write-back is one write to the server of `fail_node_index`. -/
theorem exec_writeBack (V : CodingMatrix) {key : Key} (hkey : memcachedKeyTest key = true) {block : Block}
    {size : Nat} (hsize : size ≤ block.length) :
    ∃ io, (writeBack V key block size).exec E c x =
        (.ok ((), { c with numberOfB := 1, io := io }),
          (E.serve (place c.failNodeIndex) (.set key (block.take size) 0 86400) x).2) ∧
      Io.Synced c.serverCount io := by
  have hcount : c.serverCount ≠ 0 := by
    have := hp.core
    omega
  obtain ⟨rc, io, he, hs'⟩ := exec_memcachedSendBinary hE (x := x)
    (c := Client.resetResult { c with numberOfB := 0 }) (s := place c.failNodeIndex) key (block.take size)
    86400 0 ⟨hs.conn, hs.idle⟩ (hp.server _ hp.fail)
  refine ⟨io, ?_, hs'⟩
  have hset : (memcachedSet V key (block.take size) 86400 0).exec E { c with numberOfB := 0 } x =
      (.ok (rc, { c with numberOfB := 0, io := io }),
        (E.serve (place c.failNodeIndex) (.set key (block.take size) 0 86400) x).2) := by
    have hmode : ({ c with numberOfB := 0 } : Client).lrcMode = false := by simp [Client.lrcMode]
    rw [memcachedSet, exec_memcachedSendWith _ { c with numberOfB := 0 } x key _ 86400 0 hcount hkey
      (hp.nodeServer hp.fail), if_neg (by simp [hmode]), if_neg (by simp [hp.notCore])]
    exact he
  simp only [writeBack, setNumberOfB, Proc.exec_bind, Proc.exec_modify, readRange_take block size hsize,
    Proc.exec_lift_ok, hset]

end Replying

theorem exec_crossTimes (hE : Replying E) (hp : Placed c place) (hs : Io.Synced c.serverCount c.io)
    (key : Key) {ptrs : Cells Block} {block : Block} (hread : ptrs.read 0 = .ok block) {size : Nat} (hsize : size ≤ block.length) (m : Nat) :
    ∃ io y, (crossTimes key ptrs size m).exec E c x = (.ok ((), { c with io := io }), y) ∧
      Io.Synced c.serverCount io ∧ CoreOnly E c.networkCoreServerKey x y := by
  refine exec_each_cross hE hp hs _ (fun _ _ => Or.inr ⟨key, block.take size, fun c' x' => ?_⟩)
  simp only [Proc.exec_bind, hread, Proc.exec_lift_ok, readRange_take block size hsize]

end OptLrc.Updates
