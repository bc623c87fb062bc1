import OptLrc.Outcomes

namespace OptLrc.Flags

open OptLrc.Galois OptLrc.Memory OptLrc.Jerasure OptLrc.Encoder OptLrc.Stripe OptLrc.Process
open OptLrc.Memcached OptLrc.Storage OptLrc.Retrieval OptLrc.Repair OptLrc.Sync OptLrc.Core OptLrc.Fetch
open OptLrc.Stored OptLrc.Writes OptLrc.Updates OptLrc.Keys OptLrc.Contents OptLrc.Rebuild OptLrc.Reads
open OptLrc.Repaired OptLrc.Runs OptLrc.Gets OptLrc.Outcomes

/-- `memcached_set` with its `uint32_t` flags and its `time_t` expiration, of which the servers
get `(uint32_t)expiration`. -/
def setCall (key : Key) (value : Block) (expiration : Int) (flags : BitVec 32) : Update :=
  .set key value (expiration % 2 ^ 32).toNat flags.toNat

/-- A loss or a repair of a block of the object. -/
def LosesOrRepairs (n : Nat) (key : Key) (value : Block) (u : Update) : Prop :=
  (∃ expiration, ∃ index < n, u = .delete key expiration index) ∨ ∃ p < n, u = .repair key value.length p

/-- The other blocks of the local group of `p` are there. -/
def OthersPresent (n r : Nat) (place : Nat → Nat) (key : Key) (w : World) (p : Nat) : Prop :=
  GroupOthers n r p (fun q => ∃ item, w (place q) (blockKey key q) = some item)

/-- A property of every block that is there. -/
def EveryBlock (n : Nat) (place : Nat → Nat) (key : Key) (P : Nat → Item → Prop) (w : World) : Prop :=
  ∀ p < n, ∀ item, w (place p) (blockKey key p) = some item → P p item

/-- What holds of one object between the calls of a run. -/
structure Held (V : CodingMatrix) (c : Client) (place : Nat → Nat) (key : Key) (value : Block) (c' : Client)
    (w : World) : Prop where
  code : SameCode c c'
  placed : Placed c' place
  synced : Io.Synced c.serverCount c'.io
  intact : Intact V c.numberOfN c.numberOfK c.numberOfR place key value w

variable {σ : Type} {E : Env Request Reply σ} {view : σ → World} {V : CodingMatrix} {c c' : Client} {x : σ}
  {place : Nat → Nat} {key : Key} {value : Block}

section Worlds

variable {n core : Nat} {P : Nat → Item → Prop} {w w' : World}

theorem EveryBlock.same (h : EveryBlock n place key P w) (haway : ∀ p < n, place p ≠ core)
    (hw : SameStorage core w' w) : EveryBlock n place key P w' := by
  intro p hp item hitem
  rw [hw _ (haway p hp)] at hitem
  exact h p hp item hitem

theorem EveryBlock.put (h : EveryBlock n place key P w) (hn : n ≤ maxNodes) {p : Nat} (hp : p < n)
    {item : Option Item} (hitem : ∀ i, item = some i → P p i) :
    EveryBlock n place key P (w.put (place p) (blockKey key p) item) := by
  have hn' : n ≤ 20 := hn
  intro q hq i hi
  by_cases hnew : place q = place p ∧ blockKey key q = blockKey key p
  · obtain ⟨-, rfl⟩ := blockKey_inj (by omega) (by omega) hnew.2
    rw [put_self] at hi
    exact hitem i hi
  · rw [put_of_ne hnew] at hi
    exact h q hq i hi

theorem everyBlock_putBlocks (hn : n ≤ maxNodes) {item : Nat → Item} (hitem : ∀ p < n, P p (item p)) :
    EveryBlock n place key P (World.putBlocks place key item w n) := by
  have hn' : n ≤ 20 := hn
  intro p hp i hi
  rw [putBlocks_self (by omega) hp] at hi
  cases hi
  exact hitem p hp

theorem everyBlock_effect {k r : Nat} (hn : n ≤ maxNodes) {u : Update}
    (hu : LosesOrRepairs n key value u) (h : EveryBlock n place key P w)
    (hrepair : ∀ p, u = .repair key value.length p → P p ⟨storedBlock V n k r value p, 0, 86400⟩) :
    EveryBlock n place key P (u.effect V n k r place (fun _ => some value) w) := by
  rcases hu with ⟨expiration, index, hi, rfl⟩ | ⟨p, hp, rfl⟩
  · rw [Update.effect]
    split
    · exact h.put hn hi (fun i hi => by cases hi)
    · exact h
  · exact h.put hn hp (fun i hi => by cases hi; exact hrepair p rfl)

end Worlds

section Calls

variable (hE : Storing E view) (hV : FirstRowOnes V) (hkey : ValidKey key)
include hE hV hkey

/-- The set leaves every block in its place. -/
theorem set_step (hp : Placed c place) (hs : Io.Synced c.serverCount c.io) (hval : Splits c.numberOfK value)
    (expiration flags : Nat) :
    ∃ c' y, ((Update.set key value expiration flags).prog V).exec E c x = (.ok ((), c'), y) ∧
      Held V c place key value c' (view y) ∧ ∀ p < c.numberOfN, view y (place p) (blockKey key p) =
        some (storedItem V c.numberOfN c.numberOfK c.numberOfR value expiration flags p) := by
  have hsmall : c.numberOfN ≤ 20 := hp.small
  obtain ⟨rc, io, y, hex, hs', hview⟩ := memcachedSet_stores (x := x) hE hp hs hV hkey.pos hkey.le hval
    expiration flags
  refine ⟨{ c with io := io }, y, ?_, ⟨rfl, hp.io io, hs', ?_⟩, fun p hlt => ?_⟩
  · rw [Update.prog, Proc.exec_bind_ok E c x hex, Proc.exec_pure]
  · exact EveryBlock.same (everyBlock_putBlocks hp.small (fun _ _ => rfl)) hp.away hview
  · rw [hview _ (hp.away p hlt), putBlocks_self (by omega) hlt]

/-- A loss or a repair of a block returns and has its effect on that block, or it is a repair
without the other blocks of the group, which does not return. -/
theorem call_step (hval : Splits c.numberOfK value) (h : Held V c place key value c' (view x)) {u : Update}
    (hu : LosesOrRepairs c.numberOfN key value u) :
    (∃ c'' y, (u.prog V).exec E c' x = (.ok ((), c''), y) ∧ Held V c place key value c'' (view y) ∧
      SameStorage c.networkCoreServerKey (view y)
        (u.effect V c.numberOfN c.numberOfK c.numberOfR place (fun _ => some value) (view x)) ∧
      ∀ p, u = .repair key value.length p → OthersPresent c.numberOfN c.numberOfR place key (view x) p) ∨
    ∃ p err y, u = .repair key value.length p ∧ (u.prog V).exec E c' x = (.error err, y) ∧
      ¬ OthersPresent c.numberOfN c.numberOfR place key (view x) p := by
  obtain ⟨fail, b, io, rfl⟩ := h.code.exists
  have hpl := h.placed
  rcases hu with ⟨expiration, index, hi, rfl⟩ | ⟨p, hlt, rfl⟩
  · obtain ⟨rc, io', y, hex, hs', hview⟩ := memcachedDelete_stores (x := x) hE hpl h.synced hkey.le expiration hi
    refine .inl ⟨{ c with failNodeIndex := fail, numberOfB := b, io := io' }, y, ?_,
      ⟨rfl, hpl.io io', hs', ?_⟩, fun s _ => by rw [hview]; rfl, fun p hp => by cases hp⟩
    · rw [Update.prog, Proc.exec_bind_ok E _ x hex, Proc.exec_pure]
    · rw [hview]
      split
      · exact EveryBlock.put h.intact hpl.small hi (fun i hi => by cases hi)
      · exact h.intact
  · by_cases hothers : OthersPresent c.numberOfN c.numberOfR place key (view x) p
    · obtain ⟨flags, io', y, hex, hs', hview⟩ := memcachedRepair_stores hE hV hpl h.synced hkey.nulFree hkey.le
        hval h.intact hlt hothers
      refine .inl ⟨{ c with failNodeIndex := p, numberOfB := 1, io := io' }, y, ?_,
        ⟨rfl, (hpl.failing hlt).codeOn.io io', hs', ?_⟩, hview, fun q hq => ?_⟩
      · rw [Update.prog, Proc.exec_bind_ok E _ x hex, Proc.exec_pure]
      · exact EveryBlock.same (EveryBlock.put h.intact hpl.small hlt (fun i hi => by cases hi; rfl)) hpl.away hview
      · cases hq
        exact hothers
    · have hmissing := hothers
      unfold OthersPresent GroupOthers at hmissing
      push Not at hmissing
      obtain ⟨q, hq, hgroup, hne, hmiss⟩ := hmissing
      obtain ⟨err, y, hex⟩ := memcachedRepair_missing hE hV hpl h.synced hkey.nulFree hkey.le hval h.intact hlt hq
        hgroup hne (Option.eq_none_iff_forall_ne_some.mpr hmiss)
      exact .inr ⟨p, err, y, rfl, by rw [Update.prog, Proc.exec_bind_error E _ x hex], hothers⟩

/-- What a repair that returns leaves of the flags and the expiration. -/
theorem repair_forgets (hval : Splits c.numberOfK value) (h : Held V c place key value c' (view x)) {p : Nat}
    (hlt : p < c.numberOfN) (hothers : OthersPresent c.numberOfN c.numberOfR place key (view x) p) :
    ∃ c'' y, ((Update.repair key value.length p).prog V).exec E c' x = (.ok ((), c''), y) ∧
      c''.numberOfN = c.numberOfN ∧ view y (place p) (blockKey key p) =
        some ⟨storedBlock V c.numberOfN c.numberOfK c.numberOfR value p, 0, 86400⟩ := by
  rcases call_step hE hV hkey hval h (.inr ⟨p, hlt, rfl⟩) with
    ⟨c'', y, hcall, h', hview, -⟩ | ⟨q, err, y, hq, -, hmissing⟩
  · obtain ⟨fail, b, io, rfl⟩ := h'.code.exists
    refine ⟨_, y, hcall, rfl, ?_⟩
    rw [hview _ (h'.placed.away p hlt)]
    exact put_self _ _ _ _
  · cases hq
    exact absurd hothers hmissing

/-- Along a run, what holds of the blocks goes on to hold if it holds of the blocks that the
repairs put back. -/
theorem run_held (hval : Splits c.numberOfK value) (us : List Update)
    (hus : ∀ u ∈ us, LosesOrRepairs c.numberOfN key value u) (h : Held V c place key value c' (view x))
    {P : Nat → Item → Prop} (hP : EveryBlock c.numberOfN place key P (view x))
    (hrepair : ∀ before p, before ++ [.repair key value.length p] <+: us → ∀ c1 y1,
      (Proc.each (Update.prog V) before).exec E c' x = (.ok ((), c1), y1) →
      OthersPresent c.numberOfN c.numberOfR place key (view y1) p →
      P p ⟨storedBlock V c.numberOfN c.numberOfK c.numberOfR value p, 0, 86400⟩)
    {c'' : Client} {y : σ} (hex : (Proc.each (Update.prog V) us).exec E c' x = (.ok ((), c''), y)) :
    Held V c place key value c'' (view y) ∧ EveryBlock c.numberOfN place key P (view y) := by
  induction us generalizing c' x with
  | nil =>
    cases hex
    exact ⟨h, hP⟩
  | cons u us ih =>
    rw [Proc.exec_each_cons] at hex
    obtain ⟨⟨⟩, c1, y1, hcall, hrest⟩ := Proc.exec_bind_eq_ok E _ _ hex
    have hu := hus u (by simp)
    rcases call_step hE hV hkey hval h hu with ⟨c2, y2, hcall', h1, hview, hothers⟩ | ⟨p, err, y2, -, hcall', -⟩
    · rw [hcall] at hcall'
      cases hcall'
      obtain ⟨fail, b, io, rfl⟩ := h.code.exists
      have hpl := h.placed
      have hP1 : EveryBlock c.numberOfN place key P (view y1) :=
        EveryBlock.same (everyBlock_effect hpl.small hu hP (by
          rintro p rfl
          exact hrepair [] p (by simp) _ x rfl (hothers p rfl))) hpl.away hview
      apply ih (fun u' hu' => hus u' (by simp [hu'])) h1 hP1 ?_ hrest
      intro before p hpre c2 y2 hbefore
      apply hrepair (u :: before) p (by simpa using hpre) c2 y2
      rw [Proc.exec_each_cons, Proc.exec_bind_ok E _ x hcall, hbefore]
    · rw [hcall] at hcall'
      cases hcall'

/-- The same, of a repair in a run. -/
theorem reached_repair_forgets (hval : Splits c.numberOfK value) {us : List Update}
    (hus : ∀ u ∈ us, LosesOrRepairs c.numberOfN key value u) (h : Held V c place key value c' (view x))
    {before : List Update} {p : Nat} (hpre : before ++ [.repair key value.length p] <+: us) {c1 : Client} {y1 : σ}
    (hbefore : (Proc.each (Update.prog V) before).exec E c' x = (.ok ((), c1), y1))
    (hothers : OthersPresent c.numberOfN c.numberOfR place key (view y1) p) :
    p < c.numberOfN ∧ ∃ c'' y,
      (Proc.each (Update.prog V) (before ++ [.repair key value.length p])).exec E c' x = (.ok ((), c''), y) ∧
      c''.numberOfN = c.numberOfN ∧ view y (place p) (blockKey key p) =
        some ⟨storedBlock V c.numberOfN c.numberOfK c.numberOfR value p, 0, 86400⟩ := by
  have hmem : ∀ u ∈ before ++ [.repair key value.length p], LosesOrRepairs c.numberOfN key value u :=
    fun u hu => hus u (hpre.subset hu)
  have h1 := (run_held hE hV hkey hval before (fun u hu => hmem u (by simp [hu])) h (P := fun _ _ => True)
    (fun _ _ _ _ => trivial) (fun _ _ _ _ _ _ _ => trivial) hbefore).1
  have hlt : p < c.numberOfN := by
    rcases hmem (.repair key value.length p) (by simp) with ⟨_, _, _, he⟩ | ⟨q, hq, he⟩
    · cases he
    · cases he
      exact hq
  obtain ⟨c'', y, hcall, hn, hback⟩ := repair_forgets hE hV hkey hval h1 hlt hothers
  refine ⟨hlt, c'', y, ?_, hn, hback⟩
  rw [Proc.exec_each_append E c' x _ hbefore, Proc.exec_each_cons, Proc.exec_bind_ok E c1 y1 hcall]
  rfl

end Calls

/-- Every block that is there has the flags and the expiration of the set, and a get that finds
all data blocks reports the flags. -/
structure Carries (E : Env Request Reply σ) (view : σ → World) (V : CodingMatrix) (place : Nat → Nat) (key : Key)
    (value : Block) (expiration : Int) (flags : BitVec 32) (c : Client) (x : σ) : Prop where
  blocks : EveryBlock c.numberOfN place key
    (fun _ item => item.flags = flags.toNat ∧ (item.expiration : Int) = expiration) (view x)
  get : (∀ s < c.numberOfK, HasData (view x) place key c.numberOfR s) →
    ∃ c' y, (memcachedGet V key value.length).exec E c x =
      (.ok (⟨some (value.map some), value.length, .success, some flags.toNat⟩, c'), y)

theorem carries_of_held (hE : Storing E view) (hkey : ValidKey key) (hval : Splits c.numberOfK value)
    (h : Held V c place key value c' (view x)) {expiration : Int} {flags : BitVec 32}
    (hblocks : EveryBlock c.numberOfN place key
      (fun _ item => item.flags = flags.toNat ∧ (item.expiration : Int) = expiration) (view x)) :
    Carries E view V place key value expiration flags c' x := by
  obtain ⟨fail, b, io, rfl⟩ := h.code.exists
  refine ⟨hblocks, fun hall => ?_⟩
  obtain ⟨flags', io', y, hex, -, -, hflags⟩ := memcachedGet_healthy hE h.placed h.synced hkey.nulFree hkey.le
    hval (intactData h.intact h.placed.valid) hall
  have hsame : flags' = some flags.toNat :=
    hflags _ (fun s hs item hitem => (hblocks _ (position_lt h.placed.valid hs) item hitem).1)
  exact ⟨_, y, by rw [hex, hsame]⟩

/-- The flags and the expiration are there in every state that the set and some of the calls
after it lead to. -/
def Survive (E : Env Request Reply σ) (view : σ → World) (V : CodingMatrix) (place : Nat → Nat) (key : Key)
    (value : Block) (expiration : Int) (flags : BitVec 32) (us : List Update) (c : Client) (x : σ) : Prop :=
  ∀ ts, ts <+: us → ∀ c' y, (Proc.each (Update.prog V) (setCall key value expiration flags :: ts)).exec E c x =
    (.ok ((), c'), y) → Carries E view V place key value expiration flags c' y

/-- A block is lost and repaired. -/
def lossAndRepair : List Update := [.delete [1] 0 1, .repair [1] 8 1]

/-- What they leave of an object with flags 5. -/
def afterRepair : Except Fault (Unit × Client) × World :=
  (Proc.each (Update.prog (fun _ _ _ _ => 1)) (setCall [1] [1, 0, 1, 0, 1, 0, 1, 0] 60 5 :: lossAndRepair)).exec
    storingEnv (sampleClient 2 1 1) (fun _ _ => none)

end OptLrc.Flags
