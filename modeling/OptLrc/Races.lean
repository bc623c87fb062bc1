import OptLrc.Writers
import OptLrc.Keys

namespace OptLrc.Races

open OptLrc.Galois OptLrc.Memory OptLrc.Jerasure OptLrc.Encoder OptLrc.Process OptLrc.Process.Net
open OptLrc.Memcached OptLrc.Exchange OptLrc.Storage OptLrc.Retrieval OptLrc.Repair OptLrc.Sync OptLrc.Wire
open OptLrc.Core OptLrc.Stored OptLrc.Writes OptLrc.Contents OptLrc.Keys OptLrc.Requests OptLrc.Writers

variable {σ : Type} {E : Env Request Reply σ} {view : σ → World} {V : CodingMatrix} {c d : Client} {x y : σ}
  {place : Nat → Nat} {key : Key} {value : Block} {expiration flags : Nat}

theorem bounded_synced (A : Nat × Request → Prop) (hs : Io.Synced c.serverCount c.io) : Bounded A c c := by
  refine ⟨⟨c.io, rfl⟩, fun s q hq => ?_⟩
  rw [(hs.conn s).sent] at hq
  cases hq

theorem write_reading {s : Nat} {q : Nat × Request} (h : Reading q.2) : write s key q = none := by
  obtain ⟨t, q⟩ := q
  unfold write
  split
  · cases q with
    | set key' value flags expiration => exact h.elim
    | delete key' => exact h.elim
    | _ => rfl
  · rfl

theorem write_other {s : Nat} {q : Nat × Request} (h : q.1 ≠ s) : write s key q = none := if_neg h

theorem write_set (s : Nat) (key key' : Key) (value : Block) (flags expiration : Nat) :
    write s key (s, .set key' value flags expiration) =
      if key' = key then some (some ⟨value, flags, expiration⟩) else none := if_pos rfl

section Requests

variable {q : Nat × Request} {i : Nat} {item : Option Item} (hp : Placed c place) (hi : i < c.numberOfN)
include hp hi

/-- What a set writes to the key of a block is the block of its value. -/
theorem write_of_set (hq : SetRequest V c place key value expiration flags q)
    (hw : write (place i) (blockKey key i) q = some item) :
    item = some ⟨storedBlock V c.numberOfN c.numberOfK c.numberOfR value i, flags, expiration⟩ := by
  have hsmall : c.numberOfN ≤ 20 := hp.small
  rcases hq with hq | hq | ⟨j, hj, rfl⟩
  · rw [write_other (by rw [hq]; exact (hp.away i hi).symm)] at hw
    cases hw
  · rw [write_reading hq] at hw
    cases hw
  · by_cases hs : place j = place i
    · rw [hs, storeRequest, write_set] at hw
      split at hw
      · next hk =>
        obtain ⟨-, rfl⟩ := blockKey_inj (by omega) (by omega) hk
        cases hw
        rfl
      · cases hw
    · rw [write_other hs] at hw
      cases hw

/-- A repair writes only to the key of the block that it repairs. -/
theorem write_of_repair {p : Nat} (hlt : p < c.numberOfN) (hq : RepairRequest c place key p q)
    (hw : write (place i) (blockKey key i) q = some item) : i = p ∧ ∃ block, item = some ⟨block, 0, 86400⟩ := by
  have hsmall : c.numberOfN ≤ 20 := hp.small
  rcases hq with hq | hq | ⟨block, rfl⟩
  · rw [write_other (by rw [hq]; exact (hp.away i hi).symm)] at hw
    cases hw
  · rw [write_reading hq] at hw
    cases hw
  · by_cases hs : place p = place i
    · rw [hs, write_set] at hw
      split at hw
      · next hk =>
        obtain ⟨-, rfl⟩ := blockKey_inj (by omega) (by omega) hk
        cases hw
        exact ⟨rfl, block, rfl⟩
      · cases hw
    · rw [write_other hs] at hw
      cases hw

end Requests

/-- A set and another program: each block that is left is the set's, or one that the other program
has written. -/
theorem block_left {P : Item → Prop} {trace : List (Bool × Nat × Request)} {w : World} (hp : Placed c place)
    (hset : ∀ q ∈ requests true trace, SetRequest V c place key value expiration flags q) {i : Nat}
    (hi : i < c.numberOfN) (hmem : (place i, storeRequest V c key value expiration flags i) ∈ requests true trace)
    (hother : ∀ q ∈ requests false trace, ∀ item, write (place i) (blockKey key i) q = some item →
      ∃ it, item = some it ∧ P it) :
    ∃ item, trace.foldl (fun w e => (serve e.2.1 e.2.2 w).2) w (place i) (blockKey key i) = some item ∧
      (item.value = storedBlock V c.numberOfN c.numberOfK c.numberOfR value i ∨ P item) := by
  refine served_writes (P := fun o => ∃ item, o = some item ∧
    (item.value = storedBlock V c.numberOfN c.numberOfK c.numberOfR value i ∨ P item)) ?_
    (Or.inl ⟨_, mem_requests.mp hmem, by simp [storeRequest, write_set]⟩)
  rintro ⟨first, q⟩ he item hw
  cases first with
  | true => exact ⟨_, write_of_set hp hi (hset q (mem_requests.mpr he)) hw, Or.inl rfl⟩
  | false =>
    obtain ⟨it, rfl, hit⟩ := hother q (mem_requests.mpr he) item hw
    exact ⟨it, rfl, Or.inr hit⟩

/-- All blocks of an object are there, and they are those of one value. -/
def Whole (V : CodingMatrix) (n k r : Nat) (place : Nat → Nat) (key : Key) (value : Block) (w : World) : Prop :=
  ∀ i < n, ∃ item, w (place i) (blockKey key i) = some item ∧ item.value = storedBlock V n k r value i

theorem not_whole {n k r : Nat} {w : World} {i : Nat} (hi : i < n)
    (h : (w (place i) (blockKey key i)).map Item.value ≠ some (storedBlock V n k r value i)) :
    ¬ Whole V n k r place key value w := by
  intro hw
  obtain ⟨item, hitem, hval⟩ := hw i hi
  rw [hitem, Option.map_some, hval] at h
  exact h rfl

section Mixed

def onesValue : Block := List.replicate 16 1

def zerosValue : Block := List.replicate 16 0

/-- A set of a value of two data blocks and their parity. -/
def sampleSet (value : Block) : Net Request Reply (Except Fault (ReturnCode × Client)) :=
  memcachedSet (fun _ _ _ _ => 1) [1] value 0 0 (sampleClient 3 2 2)

def sampleRepair : Net Request Reply (Except Fault ((ReturnCode × Option Nat) × Client)) :=
  memcachedRepair (fun _ _ _ _ => 1) [1] 16 0 (sampleClient 3 2 2)

/-- Each of two sets writes a block last. -/
def crossed : List Bool :=
  List.replicate 6 true ++ List.replicate 6 false ++ [true, false, false, true, true, false]

/-- A set between the reads of a repair and its write. -/
def overtaken : List Bool := List.replicate 10 false ++ List.replicate 9 true ++ [false]

/-- The servers with the blocks of a value. -/
def storedWorld : World := ((sampleSet zerosValue).run storingEnv (fun _ _ => none)).2

end Mixed

end OptLrc.Races
