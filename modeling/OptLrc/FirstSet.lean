import OptLrc.Config
import OptLrc.Created
import OptLrc.Loading

namespace OptLrc.FirstSet

open OptLrc.Galois OptLrc.Memory OptLrc.Jerasure OptLrc.Encoder OptLrc.Process OptLrc.Process.Proc
open OptLrc.Memcached OptLrc.Exchange OptLrc.Rack OptLrc.Storage OptLrc.Sync OptLrc.Core OptLrc.Framed
open OptLrc.Stored OptLrc.Statuses OptLrc.Config OptLrc.Created OptLrc.RackFile OptLrc.Loading

variable {σ : Type} {E : Env Request Reply σ} {V : CodingMatrix} {c d : Client} {f : File} {core : Nat}
  {ids : List Nat} {groups : List (List Nat)}

/-- The client, but for what calls may change: `number_of_b`, `fail_node_index` and the
connections. -/
def Settled (d c : Client) : Prop :=
  ∃ b fail io, c = { d with numberOfB := b, failNodeIndex := fail, io := io }

theorem settled_of_after {P : Prop} {b fail : Nat}
    (h : After P { d with numberOfB := b, failNodeIndex := fail } c) : Settled d c := by
  by_cases hP : P
  · obtain ⟨fail', io, rfl⟩ := h.rewritten hP
    exact ⟨1, fail', io, rfl⟩
  · obtain ⟨io, rfl⟩ := h.within hP
    exact ⟨b, fail, io, rfl⟩

/-- With the racks loaded no call changes the placement. -/
theorem triple_call_settled (hload : d.rackIsAdd = true) (hcore : d.isCore = false) (u : Call) :
    Triple E (Settled d) (u.prog V) (fun _ => Settled d) := by
  rintro c x rc c' y ⟨b, fail, io, rfl⟩ he
  have hwithin : Within { d with numberOfB := b, failNodeIndex := fail }
      { d with numberOfB := b, failNodeIndex := fail, io := io } := ⟨io, rfl⟩
  have hkept : ∀ c1, Within { d with numberOfB := b, failNodeIndex := fail } c1 → Settled d c1 := by
    rintro c1 ⟨io1, rfl⟩
    exact ⟨b, fail, io1, rfl⟩
  cases u with
  | set key value expiration flags =>
    exact hkept c' (triple_memcachedSet (d := { d with numberOfB := b, failNodeIndex := fail }) hload hcore key value
      expiration flags _ x rc c' y hwithin he)
  | get key valueLength =>
    obtain ⟨result, c1, y1, hget, hret⟩ := exec_bind_eq_ok E _ x he
    cases hret
    obtain ⟨P, hafter⟩ := triple_memcachedGet_config (d := { d with numberOfB := b, failNodeIndex := fail }) hload hcore
      key valueLength _ x result c' y hwithin hget
    exact settled_of_after hafter
  | repair key valueLength p =>
    obtain ⟨result, c1, y1, hrepair, hret⟩ := exec_bind_eq_ok E _ x he
    cases hret
    exact settled_of_after (triple_memcachedRepair_config (d := { d with numberOfB := b, failNodeIndex := fail }) hload
      hcore key valueLength p _ x result c' y hwithin hrepair)
  | delete key expiration index =>
    exact hkept c' (keepsClient_memcachedDeleteByKeyLrc key expiration index σ E _ _ x rc c' y hwithin he)

theorem triple_calls_settled (hload : d.rackIsAdd = true) (hcore : d.isCore = false) (calls : List Call) :
    Triple E (Settled d) (callAll V calls) (fun _ => Settled d) :=
  Triple.each (fun u _ => (triple_call_settled hload hcore u).bind (fun _ => triple_pure (fun _ h => h)))

/-- The first store through the code leaves the client with the placement that it loaded. -/
theorem triple_first_set (hload : ∀ io, ∃ io', loadRacks { c with io := io } = .ok { d with io := io' })
    (hmode : c.lrcMode = true) (hcount : c.serverCount ≠ 0) (hcore : d.isCore = false) {key : Key}
    (hkey : memcachedKeyTest key = true) (value : Block) (expiration flags : Nat) :
    Triple E (Within c) (memcachedSet V key value expiration flags) (fun _ => Within d) := by
  rintro c1 x rc c2 y ⟨io, rfl⟩ he
  cases hserver : ({ c with io := io } : Client).nodeServer c.failNodeIndex with
  | error e =>
    rw [memcachedSet, exec_memcachedSendWith_error (c := { c with io := io }) _ key value expiration flags hcount hkey
      hserver] at he
    cases he
  | ok s =>
    have hmode' : ({ c with io := io } : Client).lrcMode = true := hmode
    rw [memcachedSet, exec_memcachedSendWith _ { c with io := io } x key value expiration flags hcount hkey hserver,
      if_pos hmode'] at he
    exact triple_lrcSendBinary_load hload hcore s key value expiration flags _ x rc c2 y ⟨_, rfl⟩ he

/-- A store through the code loads the placement of the rack file, and no later call changes it. -/
def LoadsPlacement (V : CodingMatrix) (c : Client) (core : Nat) (ids : List Nat) (groups : List (List Nat)) : Prop :=
  ∃ d, loadRacks c = .ok d ∧ Loaded d core ids groups ∧ ∀ (σ : Type) (E : Env Request Reply σ),
    (∀ key value expiration flags, memcachedKeyTest key = true →
      Triple E (Within c) (memcachedSet V key value expiration flags) (fun _ => Within d)) ∧
    ∀ calls, Triple E (Within d) (callAll V calls)
      (fun _ c' => c'.node2rack = d.node2rack ∧ c'.nodeRack = d.nodeRack)

theorem WellFormed.io (h : WellFormed c f core ids groups) (io : Io) :
    WellFormed { c with io := io } f core ids groups :=
  ⟨h.words, h.denotes, h.ids_length, h.small, h.racks, h.id_lt, h.nonempty, h.nodup, h.room, h.hostname,
    h.node2rack, h.nodeRack, h.notAdded⟩

/-- For every well-formed rack file the placement is loaded as the file says, and kept, exactly
when every host of the file fits the twenty bytes that `add_rack` has for it. -/
theorem loadsPlacement_iff (h : WellFormed c f core ids groups) (hmode : c.lrcMode = true) :
    LoadsPlacement V c core ids groups ↔ Short f := by
  constructor
  · rintro ⟨d, hload, -⟩
    by_contra hlong
    rw [(WellFormed.loadRacks h).2 hlong] at hload
    cases hload
  · intro hshort
    have hcount : c.serverCount ≠ 0 := by
      obtain ⟨a, ha, -⟩ := h.denotes.core.host_mem
      exact List.length_pos_iff.mpr (List.ne_nil_of_mem ha) |>.ne'
    have hcore : c.isCore = false := by
      simp only [Client.lrcMode, Bool.and_eq_true, Bool.not_eq_true'] at hmode
      exact hmode.2
    have hcore' : (assigned c core ids groups ids.length).isCore = false := hcore
    refine ⟨_, (WellFormed.loadRacks h).1 hshort, loaded_assigned h, fun σ E => ⟨?_, ?_⟩⟩
    · intro key value expiration flags hkey
      refine triple_first_set (fun io => ⟨io, ?_⟩) hmode hcount hcore' hkey value expiration flags
      exact (WellFormed.loadRacks (WellFormed.io h io)).1 hshort
    · intro calls
      refine (triple_calls_settled rfl hcore' calls).mono ?_ ?_
      · rintro c1 ⟨io, rfl⟩
        exact ⟨_, _, io, rfl⟩
      · rintro - c1 ⟨b, fail, io, rfl⟩
        exact ⟨rfl, rfl⟩

/-- Two blocks in one rack, the first of them on a server with the given name, and a core. -/
def pairFile (host : Word) : File where
  core := ⟨[Byte.ofNat 99], [Byte.ofNat 51]⟩
  ids := [[Byte.ofNat 48], [Byte.ofNat 48]]
  racks := [([Byte.ofNat 50], [⟨host, [Byte.ofNat 49]⟩, ⟨[Byte.ofNat 98], [Byte.ofNat 50]⟩])]

/-- The client of that file, before its first set. -/
def pairRack (host : Word) : Client :=
  { sampleClient 2 1 1 with rackIsAdd := false, node2rack := Cells.new maxNodes, nodeRack := Cells.new maxNodes,
                            hosts := [⟨host, 1⟩, ⟨[Byte.ofNat 98], 2⟩, ⟨[Byte.ofNat 99], 3⟩],
                            rackFile := (pairFile host).words }

theorem names_of_ports {hosts : List Host} {l : Listed} {s port : Nat} (hport : l.port.number? = some port)
    (hs : hosts[s]? = some ⟨l.host, port⟩) (hnodup : (hosts.map Host.port).Nodup) : Names hosts l s := by
  refine ⟨port, hport, hs, fun t ht => ?_⟩
  obtain ⟨hs', hsp⟩ := List.getElem?_eq_some_iff.mp hs
  obtain ⟨ht', htp⟩ := List.getElem?_eq_some_iff.mp ht
  have hports : (hosts.map Host.port).get ⟨t, by simpa using ht'⟩ =
      (hosts.map Host.port).get ⟨s, by simpa using hs'⟩ := by
    simp [hsp, htp]
  exact congrArg Fin.val (List.nodup_iff_injective_get.mp hnodup hports)

theorem wellFormed_pairRack {host : Word} (hhost : host.head? = some (Byte.ofNat 97)) :
    WellFormed (pairRack host) (pairFile host) 2 [0, 0] [[0, 1]] where
  words := rfl
  denotes := by
    have hnodup : ((pairRack host).hosts.map Host.port).Nodup := show [1, 2, 3].Nodup by decide
    have hone : Word.number? [Byte.ofNat 49] = some 1 := by decide
    have htwo : Word.number? [Byte.ofNat 50] = some 2 := by decide
    have hthree : Word.number? [Byte.ofNat 51] = some 3 := by decide
    refine ⟨names_of_ports hthree rfl hnodup, .cons (by decide) (.cons (by decide) .nil), ?_⟩
    exact .cons ⟨htwo, .cons (names_of_ports hone rfl hnodup) (.cons (names_of_ports htwo rfl hnodup) .nil)⟩ .nil
  ids_length := rfl
  small := show 2 ≤ 20 by decide
  racks := by decide
  id_lt := by decide
  nonempty := by decide
  nodup := by decide
  room := by
    intro j g hg
    cases j with
    | zero =>
      cases hg
      decide
    | succ j => cases hg
  hostname := by
    intro a ha
    rcases List.mem_cons.mp ha with rfl | ha
    · simp only [hhost]
      decide
    rcases List.mem_cons.mp ha with rfl | ha
    · decide
    · rw [List.mem_singleton.mp ha]
      decide
  node2rack := rfl
  nodeRack := rfl
  notAdded := rfl

theorem loadsPlacement_pair : LoadsPlacement (fun _ _ _ _ => 1) (pairRack [Byte.ofNat 97]) 2 [0, 0] [[0, 1]] :=
  (loadsPlacement_iff (wellFormed_pairRack rfl) (by decide)).mpr (by decide)

/-- A name of twenty bytes does not leave room for its end. -/
theorem not_loadsPlacement_long :
    WellFormed (pairRack (List.replicate 20 (Byte.ofNat 97))) (pairFile (List.replicate 20 (Byte.ofNat 97))) 2 [0, 0]
      [[0, 1]] ∧
    ¬ LoadsPlacement (fun _ _ _ _ => 1) (pairRack (List.replicate 20 (Byte.ofNat 97))) 2 [0, 0] [[0, 1]] := by
  have h : WellFormed (pairRack (List.replicate 20 (Byte.ofNat 97))) _ 2 [0, 0] [[0, 1]] := wellFormed_pairRack rfl
  refine ⟨h, ?_⟩
  rintro ⟨d, hload, -⟩
  rw [(WellFormed.loadRacks h).2 (by decide)] at hload
  cases hload

end OptLrc.FirstSet
