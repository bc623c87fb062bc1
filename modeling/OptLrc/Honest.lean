import OptLrc.Outcomes
import OptLrc.Runs

namespace OptLrc.Honest

open OptLrc.Galois OptLrc.Memory OptLrc.Jerasure OptLrc.Encoder OptLrc.Stripe OptLrc.Split
open OptLrc.Process OptLrc.Memcached OptLrc.Exchange OptLrc.Storage OptLrc.Retrieval OptLrc.Repair
open OptLrc.Sync OptLrc.Stored OptLrc.Keys OptLrc.Contents OptLrc.Rebuild OptLrc.Repaired OptLrc.Runs
open OptLrc.Reads OptLrc.Gets OptLrc.Unreadable OptLrc.Losses OptLrc.Outcomes

variable {σ : Type}

/-- A get returns the stored value, or reports a failure. -/
def GetHonest (E : Env Request Reply σ) (V : CodingMatrix) (key : Key) (value : Block) (c : Client) (x : σ) :
    Prop :=
  ∃ result c' y, (memcachedGet V key value.length).exec E c x = (.ok (result, c'), y) ∧
    (result.value = some (value.map some) ∧ result.valueLength = value.length ∨
      result.value = none ∨ result.error ≠ .success)

/-- A repair stores the encoder's block, or changes no storage server and reports a failure. -/
def RepairHonest (E : Env Request Reply σ) (view : σ → World) (V : CodingMatrix) (place : Nat → Nat)
    (key : Key) (value : Block) (p : Nat) (c : Client) (x : σ) : Prop :=
  ∃ rc flags c' y, (memcachedRepair V key value.length p).exec E c x = (.ok ((rc, flags), c'), y) ∧
    ((∃ item, view y (place p) (blockKey key p) = some item ∧
        item.value = storedBlock V c.numberOfN c.numberOfK c.numberOfR value p) ∨
      SameStorage c.networkCoreServerKey (view y) (view x) ∧ rc ≠ .success)

/-- The data that a get can do with. -/
def Recoverable (V : CodingMatrix) (c : Client) (place : Nat → Nat) (key : Key) (value : Block) (w : World) :
    Prop :=
  (∀ s < c.numberOfK, HasData w place key c.numberOfR s) ∨
    ∃ j < c.numberOfK, (∀ s < c.numberOfK, HasData w place key c.numberOfR s ↔ s ≠ j) ∧
      Answered c place key value j w ∧ Agrees V c.numberOfN c.numberOfK c.numberOfR value j

theorem not_honest_of_faults {E : Env Request Reply σ} {V : CodingMatrix} {key : Key} {value : Block}
    {c : Client} {x : σ} (h : (memcachedGet V key value.length).Faults E c x) :
    ¬ GetHonest E V key value c x := by
  obtain ⟨e, y, he⟩ := h
  rintro ⟨result, c', y', hex, -⟩
  rw [he] at hex
  cases hex

section Loss

variable {E : Env Request Reply σ} {view : σ → World} {V : CodingMatrix} {c : Client} {x : σ}
  {place : Nat → Nat} {key : Key} {value : Block} (hE : Storing E view) (hV : FirstRowOnes V)
  (hp : Placed c place) (hs : Io.Synced c.serverCount c.io) (hkey : ValidKey key)
  (hval : Splits c.numberOfK value)
  (hint : Intact V c.numberOfN c.numberOfK c.numberOfR place key value (view x))
include hE hV hp hs hkey hval hint

/-- With data block `j` lost, the get is right exactly when its second fetch is answered by blocks
that make up for the rest of the group. -/
theorem getHonest_lost_iff (honly : PlacesOnly c) {j : Nat} (hj : j < c.numberOfK)
    (hmiss : ∀ s < c.numberOfK, HasData (view x) place key c.numberOfR s ↔ s ≠ j) :
    GetHonest E V key value c x ↔ Answered c place key value j (view x) ∧
      Agrees V c.numberOfN c.numberOfK c.numberOfR value j := by
  have hv := hp.valid
  by_cases hans : Answered c place key value j (view x)
  · obtain ⟨flags, io, y, hget, -, -⟩ := memcachedGet_degraded hE hp hs hkey.nulFree hkey.le hval hint hj hmiss
      hV hans
    have hlen := length_decodedBytes V c.numberOfN c.numberOfR value j hv.k_pos
    rw [← decodedBytes_eq_iff hv hval hj, ← patched_eq_iff hval hj hlen]
    constructor
    · rintro ⟨result, c', y', hex, h⟩
      rw [hget] at hex
      cases hex
      simp only [Option.some.injEq, reduceCtorEq, ne_eq, not_true_eq_false, or_self, or_false] at h
      exact ⟨hans, List.map_injective_iff.mpr (Option.some_injective _) h.1⟩
    · rintro ⟨-, h⟩
      refine ⟨_, _, _, hget, Or.inl ⟨?_, rfl⟩⟩
      rw [h]
  · have hfault := memcachedGet_unanswered hE hp hs hkey.nulFree hkey.le hval hint hj hmiss hV honly hans
    exact ⟨fun h => absurd h (not_honest_of_faults hfault), fun h => absurd h.1 hans⟩

theorem getHonest_iff (honly : PlacesOnly c) :
    GetHonest E V key value c x ↔ Recoverable V c place key value (view x) := by
  have hv := hp.valid
  by_cases hall : ∀ s < c.numberOfK, HasData (view x) place key c.numberOfR s
  · obtain ⟨flags, io, y, hget, -, -⟩ := memcachedGet_healthy hE hp hs hkey.nulFree hkey.le hval
      (intactData hint hv) hall
    exact ⟨fun _ => Or.inl hall, fun _ => ⟨_, _, _, hget, Or.inl ⟨rfl, rfl⟩⟩⟩
  push Not at hall
  obtain ⟨j, hj, hlost⟩ := hall
  by_cases hone : ∀ s < c.numberOfK, HasData (view x) place key c.numberOfR s ↔ s ≠ j
  · rw [getHonest_lost_iff hE hV hp hs hkey hval hint honly hj hone]
    constructor
    · exact fun h => Or.inr ⟨j, hj, hone, h⟩
    · rintro (h | ⟨j', hj', hone', h⟩)
      · exact absurd (h j hj) hlost
      · have : j = j' := by
          by_contra hne
          exact hlost ((hone' j hj).mpr hne)
        rwa [this]
  · obtain ⟨s, hlt, hsj, hmiss⟩ : ∃ s < c.numberOfK, s ≠ j ∧
        ¬ HasData (view x) place key c.numberOfR s := by
      by_contra hno
      push Not at hno
      exact hone (fun s hlt => ⟨fun h hsj => hlost (hsj ▸ h), hno s hlt⟩)
    have hfault := memcachedGet_two_lost (V := V) hE hp hs hkey.nulFree hkey.le hval hint hlt hj hsj hmiss hlost
    refine ⟨fun h => absurd h (not_honest_of_faults hfault), ?_⟩
    rintro (h | ⟨j', hj', hone', -⟩)
    · exact absurd (h j hj) hlost
    · have h1 : j = j' := by
        by_contra hne
        exact hlost ((hone' j hj).mpr hne)
      have h2 : s = j' := by
        by_contra hne
        exact hmiss ((hone' s hlt).mpr hne)
      exact absurd (h2.trans h1.symm) hsj

theorem repairHonest_iff {p : Nat} (hlt : p < c.numberOfN) :
    RepairHonest E view V place key value p c x ↔ GroupOthers c.numberOfN c.numberOfR p
      (fun q => ∃ item, view x (place q) (blockKey key q) = some item) := by
  constructor
  · rintro ⟨rc, flags, c', y, hex, -⟩ q hq hgroup hne
    by_contra hmiss
    obtain ⟨e, y', he⟩ := memcachedRepair_missing hE hV hp hs hkey.nulFree hkey.le hval hint hlt hq hgroup hne
      (Option.eq_none_iff_forall_ne_some.mpr (fun item hitem => hmiss ⟨item, hitem⟩))
    rw [he] at hex
    cases hex
  · intro hothers
    obtain ⟨flags, io, y, hex, -, hview⟩ := memcachedRepair_stores hE hV hp hs hkey.nulFree hkey.le hval hint hlt
      hothers
    refine ⟨.success, flags, _, y, hex, Or.inl ⟨⟨storedBlock V c.numberOfN c.numberOfK c.numberOfR value p, 0,
      86400⟩, ?_, rfl⟩⟩
    rw [hview _ (hp.away p hlt), put_self]

end Loss

/-- The servers of an object, without the blocks at some positions. -/
def storedWithout (V : CodingMatrix) (n k r : Nat) (place : Nat → Nat) (key : Key) (value : Block)
    (lost : List Nat) : World := fun s key' =>
  ((List.range n).find? (fun p => place p = s ∧ blockKey key p = key' ∧ p ∉ lost)).map
    (fun p => ⟨storedBlock V n k r value p, 0, 0⟩)

section Without

variable (V : CodingMatrix) {n : Nat} (k r : Nat) (place : Nat → Nat) (key : Key) (value : Block)
  (lost : List Nat)

theorem storedWithout_eq (hn : n ≤ maxNodes) {p : Nat} (hp : p < n) :
    storedWithout V n k r place key value lost (place p) (blockKey key p) =
      if p ∈ lost then none else some ⟨storedBlock V n k r value p, 0, 0⟩ := by
  have hn' : n ≤ 20 := hn
  unfold storedWithout
  split
  · next hlost =>
    rw [Option.map_eq_none_iff, List.find?_eq_none]
    simp only [List.mem_range, decide_eq_true_eq]
    rintro q hq ⟨-, hk, hnot⟩
    rw [(blockKey_inj (by omega) (by omega) hk).2] at hnot
    exact hnot hlost
  · next hlost =>
    cases hfind : (List.range n).find? (fun q => place q = place p ∧ blockKey key q = blockKey key p ∧
        q ∉ lost) with
    | none =>
      rw [List.find?_eq_none] at hfind
      exact absurd (show _ = true by simp [hlost]) (hfind p (List.mem_range.mpr hp))
    | some q =>
      have hq := List.find?_some hfind
      have hmem := List.mem_range.mp (List.mem_of_find?_eq_some hfind)
      simp only [decide_eq_true_eq] at hq
      rw [Option.map_some, (blockKey_inj (by omega) (by omega) hq.2.1).2]

theorem intact_storedWithout (hn : n ≤ maxNodes) :
    Intact V n k r place key value (storedWithout V n k r place key value lost) := by
  intro p hp item hitem
  rw [storedWithout_eq V k r place key value lost hn hp] at hitem
  split at hitem
  · cases hitem
  · cases hitem
    rfl

theorem storedWithout_isSome (hn : n ≤ maxNodes) {p : Nat} (hp : p < n) :
    (∃ item, storedWithout V n k r place key value lost (place p) (blockKey key p) = some item) ↔
      p ∉ lost := by
  rw [storedWithout_eq V k r place key value lost hn hp]
  split
  · next h => simp [h]
  · next h => simp [h]

end Without

theorem placesOnly_sampleClient (n k r : Nat) : PlacesOnly (sampleClient n k r) := by
  intro i hi
  have hnot : ¬ i < n := Nat.not_lt.mpr hi
  by_cases h : i < maxNodes
  · exact ⟨.uninitialised, by simp [Cells.read, sampleClient, hnot, h]⟩
  · exact ⟨.outOfBounds, by simp [Cells.read, sampleClient, h]⟩

/-- The coding matrices that Jerasure computes for three data blocks and two or three parities. -/
def threeMatrix : CodingMatrix := fun _ m i j =>
  if i = 0 ∨ j = 0 then 1
  else if i = 1 ∧ m = 3 then Byte.ofNat (if j = 1 then 196 else 83)
  else Byte.ofNat (if j = 1 then 245 else 244)

end OptLrc.Honest
