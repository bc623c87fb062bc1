import OptLrc.Keys
import OptLrc.Writes

namespace OptLrc.Contents

open OptLrc.Galois OptLrc.Memory OptLrc.Jerasure OptLrc.Encoder OptLrc.Stripe OptLrc.Process
open OptLrc.Memcached OptLrc.Exchange OptLrc.Storage OptLrc.Retrieval OptLrc.Sync
open OptLrc.Wire OptLrc.Core OptLrc.Fetch OptLrc.Stored OptLrc.Writes OptLrc.Keys

/-- Two worlds agree on every server but the core. -/
def SameStorage (core : Nat) (w w' : World) : Prop := ∀ s, s ≠ core → w s = w' s

theorem SameStorage.refl (core : Nat) (w : World) : SameStorage core w w := fun _ _ => rfl

theorem SameStorage.symm {core : Nat} {w w' : World} (h : SameStorage core w w') :
    SameStorage core w' w := fun s hs => (h s hs).symm

theorem SameStorage.trans {core : Nat} {w w' w'' : World} (h : SameStorage core w w')
    (h' : SameStorage core w' w'') : SameStorage core w w'' := fun s hs => (h s hs).trans (h' s hs)

theorem SameStorage.put {core : Nat} {w w' : World} (h : SameStorage core w w') (s : Nat) (key : Key)
    (item : Option Item) : SameStorage core (w.put s key item) (w'.put s key item) := by
  intro t ht
  funext key'
  simp only [World.put, h t ht]

theorem put_core (core : Nat) (w : World) (key : Key) (item : Option Item) :
    SameStorage core (w.put core key item) w := by
  intro t ht
  funext key'
  simp [World.put, ht]

/-- The items of the blocks below a bound, each on its server. -/
def World.putBlocks (place : Nat → Nat) (key : Key) (item : Nat → Item) (w : World) : Nat → World
  | 0 => w
  | m + 1 => (World.putBlocks place key item w m).put (place m) (blockKey key m) (some (item m))

section PutBlocks

variable {place : Nat → Nat} {key : Key} {item : Nat → Item} {w w' : World}

theorem SameStorage.putBlocks {core : Nat} (h : SameStorage core w w') (m : Nat) :
    SameStorage core (World.putBlocks place key item w m) (World.putBlocks place key item w' m) := by
  induction m with
  | zero => exact h
  | succ m ih => exact ih.put _ _ _

theorem putBlocks_of_ne {m s : Nat} {key' : Key} (h : ∀ i < m, ¬ (s = place i ∧ key' = blockKey key i)) :
    World.putBlocks place key item w m s key' = w s key' := by
  induction m with
  | zero => rfl
  | succ m ih =>
    rw [World.putBlocks, put_of_ne (h m (by omega))]
    exact ih (fun i hi => h i (by omega))

theorem putBlocks_self {m i : Nat} (hm : m ≤ 100) (hi : i < m) :
    World.putBlocks place key item w m (place i) (blockKey key i) = some (item i) := by
  induction m with
  | zero => omega
  | succ m ih =>
    by_cases h : i = m
    · rw [h, World.putBlocks, put_self]
    · rw [World.putBlocks, put_of_ne]
      · exact ih (by omega) (by omega)
      · rintro ⟨-, he⟩
        exact h (blockKey_inj (by omega) (by omega) he).2

end PutBlocks

variable {σ : Type} {E : Env Request Reply σ} {view : σ → World}

section View

variable (hE : Storing E view)
include hE

theorem view_coreState (core : Nat) (key : Key) (value : Block) (x : σ) :
    SameStorage core (view (coreState E core key value x)) (view x) := by
  have hget : ∀ w : World, (serve core (.getk key) w).2 = w := by
    intro w
    cases h : w core key <;> simp [serve, h]
  rw [coreState, hE.stores, hget, hE.stores]
  exact put_core core _ _ _

theorem view_coreOnly {core : Nat} {x y : σ} (h : CoreOnly E core x y) :
    SameStorage core (view y) (view x) := by
  induction h with
  | refl x => exact .refl core _
  | step key value x y _ ih => exact ih.trans (view_coreState hE core key value x)

theorem view_transferState (core : Nat) (key : Key) (block : Nat → Block) (l : List Nat) (x : σ) :
    SameStorage core (view (transferState E core key block l x)) (view x) := by
  induction l generalizing x with
  | nil => exact .refl core _
  | cons i l ih => exact (ih _).trans (view_coreState hE core _ _ x)

theorem view_scatterState (place : Nat → Nat) (key : Key) {q : Nat → Request} (item : Nat → Item)
    (hq : ∀ i, q i = .set (blockKey key i) (item i).value (item i).flags (item i).expiration) (x : σ)
    (m : Nat) :
    view (scatterState E place q x m) = World.putBlocks place key item (view x) m := by
  induction m with
  | zero => rfl
  | succ m ih =>
    rw [scatterState, hE.stores, ih, hq]
    rfl

theorem view_picks {x y : σ} (h : E.Picks x y) : view y = view x := h.preserves hE.pick

end View

/-- The items that a set stores. -/
def storedItem (V : CodingMatrix) (n k r : Nat) (value : Block) (expiration flags i : Nat) : Item :=
  ⟨storedBlock V n k r value i, flags, expiration⟩

section Ops

variable (hE : Storing E view) {V : CodingMatrix} {c : Client} {x : σ} {place : Nat → Nat}
  (hp : Placed c place) (hs : Io.Synced c.serverCount c.io)
include hE hp hs

/-- A set puts every block of the stripe on its server, and changes nothing else in the storage. -/
theorem memcachedSet_stores (hV : FirstRowOnes V) {key : Key} (hpos : 0 < key.length)
    (hkey : key.length ≤ 248) {value : Block} (hval : Splits c.numberOfK value)
    (expiration flags : Nat) :
    ∃ rc io y, (memcachedSet V key value expiration flags).exec E c x =
        (.ok (rc, { c with io := io }), y) ∧
      Io.Synced c.serverCount io ∧
      SameStorage c.networkCoreServerKey (view y) (World.putBlocks place key
        (storedItem V c.numberOfN c.numberOfK c.numberOfR value expiration flags) (view x)
        c.numberOfN) := by
  obtain ⟨l, y, rc, io, -, hy, he, hs', -⟩ := exec_memcachedSet (x := x) (Storing.replying hE) hV hp hs
    hpos hkey hval expiration flags
  refine ⟨rc, io, _, he, hs', ?_⟩
  have hview := view_scatterState hE place key (q := storeRequest V c key value expiration flags)
    (storedItem V c.numberOfN c.numberOfK c.numberOfR value expiration flags) (fun i => rfl) y
    c.numberOfN
  rw [hview, hy]
  exact (view_transferState hE _ _ _ _ x).putBlocks _

end Ops

end OptLrc.Contents
