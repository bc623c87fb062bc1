import OptLrc.Repaired

namespace OptLrc.Runs

open OptLrc.Galois OptLrc.Memory OptLrc.Jerasure OptLrc.Encoder OptLrc.Stripe OptLrc.Process
open OptLrc.Memcached OptLrc.Storage OptLrc.Retrieval OptLrc.Repair OptLrc.Sync OptLrc.Core OptLrc.Fetch
open OptLrc.Stored OptLrc.Writes OptLrc.Updates OptLrc.Keys OptLrc.Contents OptLrc.Rebuild
open OptLrc.Repaired

/-- The calls that change what the servers hold. -/
inductive Update
  | set (key : Key) (value : Block) (expiration flags : Nat)
  | delete (key : Key) (expiration index : Nat)
  | repair (key : Key) (valueLength p : Nat)

def Update.prog (V : CodingMatrix) : Update → Prog Unit
  | .set key value expiration flags => do let _ ← memcachedSet V key value expiration flags
  | .delete key expiration index => do let _ ← memcachedDeleteByKeyLrc key expiration index
  | .repair key valueLength p => do let _ ← memcachedRepair V key valueLength p

/-- The last value set for each key. -/
abbrev Values := Key → Option Block

def Update.last (values : Values) : Update → Values
  | .set key value _ _ => Function.update values key (some value)
  | _ => values

/-- What a call does to what the servers hold, but for the core. -/
def Update.effect (V : CodingMatrix) (n k r : Nat) (place : Nat → Nat) (values : Values) (w : World) : Update → World
  | .set key value expiration flags =>
    World.putBlocks place key (storedItem V n k r value expiration flags) w n
  | .delete key expiration index => if expiration = 0 then w.put (place index) (blockKey key index) none else w
  | .repair key _ p =>
    match values key with
    | some value => w.put (place p) (blockKey key p) (some ⟨storedBlock V n k r value p, 0, 86400⟩)
    | none => w

structure ValidKey (key : Key) : Prop where
  pos : 0 < key.length
  le : key.length ≤ 248
  nulFree : (0 : Byte) ∉ key

/-- What a call relies on. -/
def Update.Legal (n k r : Nat) (place : Nat → Nat) (values : Values) (w : World) : Update → Prop
  | .set key value _ _ => ValidKey key ∧ Splits k value
  | .delete key _ index => ValidKey key ∧ index < n
  | .repair key valueLength p => ValidKey key ∧ p < n ∧
    (∃ value, values key = some value ∧ value.length = valueLength) ∧
    GroupOthers n r p (fun q => ∃ item, w (place q) (blockKey key q) = some item)

variable {σ : Type} (E : Env Request Reply σ) (view : σ → World) (V : CodingMatrix)

/-- A run in which each call is legal in the state in which it is issued. -/
def LegalRun (n k r : Nat) (place : Nat → Nat) : Values → Client → σ → List Update → Prop
  | _, _, _, [] => True
  | values, c, x, u :: us => Update.Legal n k r place values (view x) u ∧
    ∀ c' x', (u.prog V).exec E c x = (.ok ((), c'), x') →
      LegalRun n k r place (u.last values) c' x' us

/-- Every block on a storage server is the one the encoder stores for the last value of its key,
on the server where it belongs. -/
def Stripes (n k r : Nat) (place : Nat → Nat) (core : Nat) (values : Values) (w : World) : Prop :=
  ∀ s, s ≠ core → ∀ key item, w s key = some item → ∃ object p value, p < n ∧ key = blockKey object p ∧
    s = place p ∧ values object = some value ∧ item.value = storedBlock V n k r value p

/-- The fields of a client that the calls leave alone. -/
def SameCode (c c' : Client) : Prop :=
  c' = { c with failNodeIndex := c'.failNodeIndex, numberOfB := c'.numberOfB, io := c'.io }

/-- What holds between the calls of a run. -/
structure Settled (c : Client) (place : Nat → Nat) (values : Values) (c' : Client) (w : World) : Prop where
  code : SameCode c c'
  placed : Placed c' place
  synced : Io.Synced c.serverCount c'.io
  splits : ∀ key value, values key = some value → Splits c.numberOfK value
  stripes : Stripes V c.numberOfN c.numberOfK c.numberOfR place c.networkCoreServerKey values w

variable {E view V} {c c' : Client} {x : σ} {place : Nat → Nat} {values : Values}

section Stripes

variable {n k r core : Nat} {w w' : World}

theorem Stripes.same (h : Stripes V n k r place core values w) (hw : SameStorage core w' w) :
    Stripes V n k r place core values w' := by
  intro s hs key item hitem
  rw [hw s hs] at hitem
  exact h s hs key item hitem

theorem Stripes.putBlocks (h : Stripes V n k r place core values w) (hn : n ≤ maxNodes) (object : Key)
    (value : Block) (expiration flags : Nat) :
    Stripes V n k r place core (Function.update values object (some value))
      (World.putBlocks place object (storedItem V n k r value expiration flags) w n) := by
  have hn' : n ≤ 20 := hn
  intro s hs key item hitem
  by_cases hnew : ∃ p < n, s = place p ∧ key = blockKey object p
  · obtain ⟨p, hp, rfl, rfl⟩ := hnew
    rw [putBlocks_self (by omega) hp] at hitem
    cases hitem
    exact ⟨object, p, value, hp, rfl, rfl, by simp, rfl⟩
  · push Not at hnew
    rw [putBlocks_of_ne (fun p hp he => hnew p hp he.1 he.2)] at hitem
    obtain ⟨object', p, value', hp, rfl, rfl, hlast, hval⟩ := h s hs key item hitem
    have hne : object' ≠ object := by
      rintro rfl
      exact hnew p hp rfl rfl
    exact ⟨object', p, value', hp, rfl, rfl, by simpa [hne] using hlast, hval⟩

theorem Stripes.put (h : Stripes V n k r place core values w) {object : Key} {p : Nat} {value : Block}
    (hp : p < n) (hlast : values object = some value) {item : Option Item}
    (hitem : ∀ i, item = some i → i.value = storedBlock V n k r value p) :
    Stripes V n k r place core values (w.put (place p) (blockKey object p) item) := by
  intro s hs key i hi
  by_cases hnew : s = place p ∧ key = blockKey object p
  · obtain ⟨rfl, rfl⟩ := hnew
    rw [put_self] at hi
    exact ⟨object, p, value, hp, rfl, rfl, hlast, hitem i hi⟩
  · rw [put_of_ne hnew] at hi
    exact h s hs key i hi

theorem Stripes.remove (h : Stripes V n k r place core values w) (s : Nat) (key : Key) :
    Stripes V n k r place core values (w.put s key none) := by
  intro t ht key' i hi
  by_cases hnew : t = s ∧ key' = key
  · obtain ⟨rfl, rfl⟩ := hnew
    rw [put_self] at hi
    cases hi
  · rw [put_of_ne hnew] at hi
    exact h t ht key' i hi

theorem Stripes.intact (h : Stripes V n k r place core values w) (hn : n ≤ maxNodes)
    (haway : ∀ p < n, place p ≠ core) {key : Key} {value : Block} (hlast : values key = some value) :
    Intact V n k r place key value w := by
  have hn' : n ≤ 20 := hn
  intro p hp item hitem
  obtain ⟨object, q, value', hq, hkey, -, hlast', hval⟩ := h _ (haway p hp) _ _ hitem
  obtain ⟨rfl, rfl⟩ := blockKey_inj (by omega) (by omega) hkey
  rw [hlast] at hlast'
  cases hlast'
  exact hval

end Stripes

theorem SameCode.exists (h : SameCode c c') :
    ∃ fail b io, c' = { c with failNodeIndex := fail, numberOfB := b, io := io } :=
  ⟨_, _, _, h⟩

/-- A delete takes one block away, or does nothing when it is given an expiration. -/
theorem memcachedDelete_stores (hE : Storing E view) (hp : Placed c place)
    (hs : Io.Synced c.serverCount c.io) {key : Key} (hkey : key.length ≤ 248) (expiration : Nat)
    {index : Nat} (hi : index < c.numberOfN) :
    ∃ rc io y, (memcachedDeleteByKeyLrc key expiration index).exec E c x =
        (.ok (rc, { c with io := io }), y) ∧ Io.Synced c.serverCount io ∧
      view y = if expiration = 0 then (view x).put (place index) (blockKey key index) none else view x := by
  by_cases h0 : expiration = 0
  · subst h0
    obtain ⟨rc, io, he, hs', -⟩ := exec_memcachedDeleteByKeyLrc (x := x) (Storing.replying hE) hp hs hkey hi
    refine ⟨rc, io, _, he, hs', ?_⟩
    rw [if_pos rfl, hE.stores]
    cases hw : view x (place index) (blockKey key index) with
    | some item => simp [serve, hw]
    | none =>
      simp only [serve, hw]
      funext s key'
      by_cases h : s = place index ∧ key' = blockKey key index
      · obtain ⟨rfl, rfl⟩ := h
        rw [hw, put_self]
      · rw [put_of_ne h]
  · have hcount : c.serverCount ≠ 0 := by
      have := hp.core
      omega
    refine ⟨.invalidArguments, { c.io with result := .reset }, x, ?_, ⟨hs.conn, hs.idle⟩, by rw [if_neg h0]⟩
    simp only [memcachedDeleteByKeyLrc, Proc.exec_bind, exec_initializeQuery E c x hcount, ne_eq,
      not_true_eq_false, if_false, keyTest_blockKey hkey, h0, not_false_eq_true, if_true, Proc.exec_pure]
    rfl

section Step

variable (hE : Storing E view) (hV : FirstRowOnes V) (h : Settled V c place values c' (view x))
include hE hV h

/-- A legal repair puts back the encoder's block, and changes nothing else in the storage. -/
theorem repair_step {key : Key} (hkey : ValidKey key) {p : Nat} (hp : p < c.numberOfN) {value : Block}
    (hlast : values key = some value)
    (hothers : GroupOthers c.numberOfN c.numberOfR p
      (fun q => ∃ item, view x (place q) (blockKey key q) = some item)) :
    ∃ c'' y, ((Update.repair key value.length p).prog V).exec E c' x = (.ok ((), c''), y) ∧
      Settled V c place values c'' (view y) ∧
      SameStorage c.networkCoreServerKey (view y) ((view x).put (place p) (blockKey key p)
        (some ⟨storedBlock V c.numberOfN c.numberOfK c.numberOfR value p, 0, 86400⟩)) := by
  obtain ⟨fail, b, io, rfl⟩ := h.code.exists
  have hpl := h.placed
  obtain ⟨flags, io', y, hex, hs', hview⟩ := memcachedRepair_stores hE hV hpl h.synced hkey.nulFree hkey.le
    (h.splits key value hlast) (h.stripes.intact hpl.small hpl.away hlast) hp hothers
  refine ⟨{ c with failNodeIndex := p, numberOfB := 1, io := io' }, y, ?_, ⟨rfl,
    (hpl.failing hp).codeOn.io io', hs', h.splits, ?_⟩, hview⟩
  · rw [Update.prog, Proc.exec_bind_ok E _ x hex, Proc.exec_pure]
  · refine (h.stripes.put hp hlast (fun i hi => ?_)).same hview
    cases hi
    rfl

/-- Each legal call ends, and keeps the stripes. -/
theorem update_step {u : Update}
    (hlegal : u.Legal c.numberOfN c.numberOfK c.numberOfR place values (view x)) :
    ∃ c'' y, (u.prog V).exec E c' x = (.ok ((), c''), y) ∧
      Settled V c place (u.last values) c'' (view y) ∧
      SameStorage c.networkCoreServerKey (view y)
        (u.effect V c.numberOfN c.numberOfK c.numberOfR place values (view x)) := by
  cases u with
  | set key value expiration flags =>
    obtain ⟨hkey, hval⟩ := hlegal
    obtain ⟨fail, b, io, rfl⟩ := h.code.exists
    have hpl := h.placed
    obtain ⟨rc, io', y, hex, hs', hview⟩ := memcachedSet_stores (x := x) hE hpl h.synced hV hkey.pos hkey.le hval
      expiration flags
    refine ⟨{ c with failNodeIndex := fail, numberOfB := b, io := io' }, y,
      by rw [Update.prog, Proc.exec_bind_ok E _ x hex, Proc.exec_pure], ⟨rfl, hpl.io io', hs', ?_,
      (h.stripes.putBlocks hpl.small key value expiration flags).same hview⟩, hview⟩
    intro key' value' hlast
    by_cases hk : key' = key
    · subst hk
      simp only [Update.last, Function.update_self, Option.some.injEq] at hlast
      rwa [← hlast]
    · exact h.splits key' value' (by simpa [Update.last, hk] using hlast)
  | delete key expiration index =>
    obtain ⟨hkey, hi⟩ := hlegal
    obtain ⟨fail, b, io, rfl⟩ := h.code.exists
    have hpl := h.placed
    obtain ⟨rc, io', y, hex, hs', hview⟩ := memcachedDelete_stores (x := x) hE hpl h.synced hkey.le expiration hi
    refine ⟨{ c with failNodeIndex := fail, numberOfB := b, io := io' }, y,
      by rw [Update.prog, Proc.exec_bind_ok E _ x hex, Proc.exec_pure], ⟨rfl, hpl.io io', hs',
      h.splits, ?_⟩, fun s _ => by rw [hview]; rfl⟩
    rw [hview]
    split
    · exact h.stripes.remove _ _
    · exact h.stripes
  | repair key valueLength p =>
    obtain ⟨hkey, hp, ⟨value, hlast, rfl⟩, hothers⟩ := hlegal
    obtain ⟨c'', y, hex, hset, hview⟩ := repair_step hE hV h hkey hp hlast hothers
    refine ⟨c'', y, hex, hset, ?_⟩
    simpa only [Update.effect, hlast] using hview

omit hE hV in
/-- A legal repair leaves its block where it belongs. -/
theorem repaired_present {key : Key} {valueLength p : Nat}
    (hlegal : (Update.repair key valueLength p).Legal c.numberOfN c.numberOfK c.numberOfR place values (view x))
    {w : World} (hw : SameStorage c.networkCoreServerKey w
      ((Update.repair key valueLength p).effect V c.numberOfN c.numberOfK c.numberOfR place values (view x))) :
    ∃ item, w (place p) (blockKey key p) = some item := by
  obtain ⟨-, hp, ⟨value, hlast, -⟩, -⟩ := hlegal
  obtain ⟨fail, b, io, rfl⟩ := h.code.exists
  rw [hw _ (h.placed.away p hp), Update.effect, hlast]
  exact ⟨_, put_self _ _ _ _⟩

end Step

/-- The values after a run. -/
def lastValues (values : Values) (us : List Update) : Values := us.foldl Update.last values

/-- A legal run ends, and keeps the stripes. -/
theorem run_settled (hE : Storing E view) (hV : FirstRowOnes V) (us : List Update)
    (h : Settled V c place values c' (view x))
    (hlegal : LegalRun E view V c.numberOfN c.numberOfK c.numberOfR place values c' x us) :
    ∃ c'' y, (Proc.each (Update.prog V) us).exec E c' x = (.ok ((), c''), y) ∧
      Settled V c place (lastValues values us) c'' (view y) ∧
      ∀ before key valueLength p, us = before ++ [.repair key valueLength p] →
        ∃ item, view y (place p) (blockKey key p) = some item := by
  induction us generalizing values c' x with
  | nil => exact ⟨c', x, rfl, h, by simp⟩
  | cons u us ih =>
    obtain ⟨c1, y, hex, hset, heffect⟩ := update_step hE hV h hlegal.1
    obtain ⟨c2, z, hex', hset', hrep'⟩ := ih hset (hlegal.2 c1 y hex)
    refine ⟨c2, z, ?_, hset', fun before key valueLength p hus => ?_⟩
    · rw [Proc.exec_each_cons, Proc.exec_bind_ok E c' x hex, hex']
    · cases before with
      | nil =>
        obtain ⟨rfl, rfl⟩ := List.cons.inj hus
        cases hex'
        exact repaired_present h hlegal.1 heffect
      | cons u' before =>
        exact hrep' before key valueLength p (List.cons.inj hus).2

/-- Lost blocks of different groups can be repaired in any order. -/
theorem repairs_restore (hE : Storing E view) (hV : FirstRowOnes V)
    (h : Settled V c place values c' (view x)) {key : Key} (hkey : ValidKey key) {value : Block}
    (hlast : values key = some value) (lost : List Nat) (hlt : ∀ p ∈ lost, p < c.numberOfN)
    (hgroups : lost.Pairwise (fun p q => p / (c.numberOfR + 1) ≠ q / (c.numberOfR + 1)))
    (hothers : ∀ q < c.numberOfN, q ∉ lost → ∃ item, view x (place q) (blockKey key q) = some item) :
    ∃ c'' y, (Proc.each (Update.prog V) (lost.map (.repair key value.length))).exec E c' x =
        (.ok ((), c''), y) ∧
      ∀ q < c.numberOfN, ∃ item, view y (place q) (blockKey key q) = some item ∧
        item.value = storedBlock V c.numberOfN c.numberOfK c.numberOfR value q := by
  induction lost generalizing c' x with
  | nil =>
    have hintact : Intact V c.numberOfN c.numberOfK c.numberOfR place key value (view x) := by
      obtain ⟨fail, b, io, rfl⟩ := h.code.exists
      exact h.stripes.intact h.placed.small h.placed.away hlast
    refine ⟨c', x, rfl, fun q hq => ?_⟩
    obtain ⟨item, hitem⟩ := hothers q hq (by simp)
    exact ⟨item, hitem, hintact q hq item hitem⟩
  | cons p lost ih =>
    obtain ⟨hfirst, hrest⟩ := List.pairwise_cons.mp hgroups
    have hp := hlt p (by simp)
    obtain ⟨c1, y, hex, hset, hview⟩ := repair_step hE hV h hkey hp hlast (by
      intro q hq hdiv hne
      refine hothers q hq (fun hmem => ?_)
      rcases List.mem_cons.mp hmem with rfl | hmem
      · exact hne rfl
      · exact hfirst q hmem hdiv.symm)
    have haway : ∀ q < c.numberOfN, place q ≠ c.networkCoreServerKey := by
      obtain ⟨fail, b, io, rfl⟩ := h.code.exists
      exact h.placed.away
    obtain ⟨c2, z, hex', hall⟩ := ih hset (fun q hq => hlt q (by simp [hq])) hrest (by
      intro q hq hmem
      rw [hview _ (haway q hq)]
      by_cases he : place q = place p ∧ blockKey key q = blockKey key p
      · rw [he.1, he.2, put_self]
        exact ⟨_, rfl⟩
      · rw [put_of_ne he]
        refine hothers q hq ?_
        rintro (_ | ⟨_, hmem'⟩)
        · exact he ⟨rfl, rfl⟩
        · exact hmem hmem')
    refine ⟨c2, z, ?_, hall⟩
    rw [List.map_cons, Proc.exec_each_cons, Proc.exec_bind_ok E c' x hex, hex']

/-- A value is stored, one block is lost, and it is repaired. -/
def sampleRun : List Update :=
  [.set [1] [1, 0, 1, 0, 1, 0, 1, 0] 0 0, .delete [1] 0 1, .repair [1] 8 1]

theorem firstRowOnes_one : FirstRowOnes (fun _ _ _ _ => 1) := fun _ _ _ _ _ _ => rfl

theorem legalRun_sampleRun :
    LegalRun storingEnv id (fun _ _ _ _ => 1) 2 1 1 id (fun _ => none) (sampleClient 2 1 1)
      (fun _ _ => none) sampleRun := by
  have hkey : ValidKey [1] := ⟨by decide, by decide, by decide⟩
  refine ⟨⟨hkey, by decide, by decide⟩, fun c1 x1 h1 => ⟨⟨hkey, by decide⟩, fun c2 x2 h2 =>
    ⟨⟨hkey, by decide, ⟨_, rfl, rfl⟩, fun q hq _ hne => ?_⟩, fun _ _ _ => trivial⟩⟩⟩
  have hrun : (Proc.each (Update.prog (fun _ _ _ _ => 1)) (sampleRun.take 2)).exec storingEnv
      (sampleClient 2 1 1) (fun _ _ => none) = (.ok ((), c2), x2) := by
    rw [sampleRun, List.take_succ_cons, Proc.exec_each_cons, Proc.exec_bind_ok storingEnv _ _ h1,
      List.take_succ_cons, Proc.exec_each_cons, Proc.exec_bind_ok storingEnv _ _ h2]
    rfl
  have h0 : q = 0 := by omega
  subst h0
  have hx : x2 = ((Proc.each (Update.prog (fun _ _ _ _ => 1)) (sampleRun.take 2)).exec storingEnv
      (sampleClient 2 1 1) (fun _ _ => none)).2 := (congrArg Prod.snd hrun).symm
  change ∃ item, x2 0 (blockKey [1] 0) = some item
  rw [hx]
  exact Option.isSome_iff_exists.mp (by decide +kernel)

end OptLrc.Runs
