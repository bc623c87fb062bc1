import OptLrc.Keeping

namespace OptLrc.Length

open OptLrc.Galois OptLrc.Memory OptLrc.Jerasure OptLrc.Encoder OptLrc.Stripe OptLrc.Process
open OptLrc.Process.Proc OptLrc.Memcached OptLrc.Exchange OptLrc.Storage OptLrc.Retrieval OptLrc.Sync
open OptLrc.Core OptLrc.Stored OptLrc.Writes OptLrc.Arrival OptLrc.Reads OptLrc.Gets OptLrc.Keeping

variable {σ : Type} {E : Env Request Reply σ} {view : σ → World} {V : CodingMatrix} {c : Client} {x : σ}
  {place : Nat → Nat} {key : Key} {value : Block}

/-- An object whose whole stripe is on the servers. -/
structure Whole (V : CodingMatrix) (n k r : Nat) (place : Nat → Nat) (key : Key) (value : Block) (w : World) :
    Prop where
  splits : Splits k value
  blocks : ∀ p < n, ∃ item, w (place p) (blockKey key p) = some item ∧
    item.value = storedBlock V n k r value p

/-- A get copies only inside its buffers, and gives `*value_length` the length of the value. -/
def FillsLength (E : Env Request Reply σ) (V : CodingMatrix) (c : Client) (x : σ) (key : Key) (value : Block)
    (valueLength : Nat) : Prop :=
  ∃ result c' y, (memcachedGet V key valueLength).exec E c x = (.ok (result, c'), y) ∧
    result.valueLength = value.length

/-- In LRC mode a get leaves `*value_length` as it was. -/
theorem triple_valueLength (valueLength : Nat) :
    Triple E (fun c => c.lrcMode = true) (memcachedGet V key valueLength)
      (fun result _ => result.valueLength = valueLength) := by
  refine Triple.bind (Q := fun c _ => c.lrcMode = true) (triple_get (fun _ h => h)) (fun c => ?_)
  by_cases hc : c.lrcMode = true
  · rw [if_pos hc]
    refine (triple_true _).bind (fun c' => ?_)
    refine (triple_true _).bind (fun rc => ?_)
    split
    · refine (triple_true _).bind (fun st => ?_)
      refine (triple_true _).bind (fun _ => ?_)
      split
      · refine (triple_true _).bind (fun st' => ?_)
        exact (triple_true _).bind (fun bytes => triple_pure (fun _ _ => rfl))
      · refine (triple_true _).bind (fun st' => ?_)
        exact (triple_true _).bind (fun bytes => triple_pure (fun _ _ => rfl))
    · exact triple_pure (fun _ _ => rfl)
  · intro c1 x a c2 y h
    exact absurd h hc

theorem Whole.intact {n k r : Nat} {w : World} (hv : Valid n k r) (h : Whole V n k r place key value w) :
    IntactData V n k r place key value w := by
  intro s hs item hitem
  obtain ⟨item', hitem', hvalue⟩ := h.blocks _ (position_lt hv hs)
  rw [hitem] at hitem'
  cases hitem'
  exact hvalue

theorem fillsLength_short (hE : Storing E view) (hp : Placed c place) (hs : Io.Synced c.serverCount c.io)
    (hnul : (0 : Byte) ∉ key) (hkey : key.length ≤ 248)
    (hw : Whole V c.numberOfN c.numberOfK c.numberOfR place key value (view x)) :
    FillsLength E V c x key value value.length := by
  obtain ⟨flags, io, y, hget, -⟩ := memcachedGet_healthy hE hp hs hnul hkey hw.splits (hw.intact hp.valid)
    (fun s hlt => by
      obtain ⟨item, hitem, -⟩ := hw.blocks _ (position_lt hp.valid hlt)
      exact ⟨item, hitem⟩)
  exact ⟨_, _, y, hget, rfl⟩

/-- The servers after the blocks of a value were stored. -/
def wholeWorld (V : CodingMatrix) (n k r : Nat) (key : Key) (value : Block) : World := fun s key' =>
  if key' = blockKey key s then some ⟨storedBlock V n k r value s, 0, 0⟩ else none

theorem whole_wholeWorld {n k r : Nat} (hval : Splits k value) :
    Whole V n k r id key value (wholeWorld V n k r key value) :=
  ⟨hval, fun _ _ => ⟨_, if_pos rfl, rfl⟩⟩

end OptLrc.Length
