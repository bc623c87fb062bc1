import OptLrc.Created
import OptLrc.Runs

namespace OptLrc.Benchmark

open OptLrc.Galois OptLrc.Memory OptLrc.Jerasure OptLrc.Encoder OptLrc.Stripe OptLrc.Process
open OptLrc.Process.Proc OptLrc.Memcached OptLrc.Stored OptLrc.Keys OptLrc.Contents OptLrc.Repaired
open OptLrc.Runs OptLrc.Created OptLrc.Sync OptLrc.Reads

/-- How often `lrc_upload_download_test` repeats each measurement. -/
def number : Nat := 10

def setEncodingScheme (scheme : Nat) : Prog Unit :=
  Proc.modify (fun c => memcachedBehaviorSet c scheme .encodingScheme)

variable (V : CodingMatrix) (key newKey : Key) (value : Block) (n k r : Nat)

/-- The measurements of the two encoding schemes. -/
def writes : Prog Unit := do
  (Update.set key value 0 0).prog V
  setEncodingScheme 0
  Proc.each (fun _ => (Update.set newKey value 0 0).prog V) (List.range number)
  Proc.each (fun _ => Proc.each (fun i => (Update.delete newKey 0 i).prog V) (List.range n))
    (List.range number)
  setEncodingScheme 1
  Proc.each (fun _ => (Update.set key value 0 0).prog V) (List.range number)

/-- The measurements of the repair of every block, and of every data block. -/
def repairs : Prog Unit := do
  Proc.each (fun _ => Proc.each (fun i => (Update.repair key value.length i).prog V) (List.range n))
    (List.range number)
  Proc.each (fun _ => Proc.each (fun i => (Update.repair key value.length (i + i / r)).prog V) (List.range k))
    (List.range number)

def deletes : Prog Unit :=
  Proc.each (fun _ => Proc.each (fun i => (Update.delete key 0 i).prog V) (List.range n)) (List.range number)

/-- The calls of `lrc_upload_download_test` from its first `memcached_set` on. -/
def lrcUploadDownloadTest : Prog Unit := do
  writes V key newKey value n
  repairs V key value n k r
  deletes V key n

section Range

variable {Req Rep S σ : Type} {E : Env Req Rep σ} {s : S} {x : σ}

/-- A counting loop keeps what each turn keeps. -/
theorem ok_each_range {f : Nat → Proc Req Rep S Unit} {m : Nat} {I : Nat → S → σ → Prop} (h0 : I 0 s x)
    (hstep : ∀ i < m, ∀ s x, I i s x → (f i).Ok E s x (fun _ => I (i + 1))) :
    (Proc.each f (List.range m)).Ok E s x (fun _ => I m) := by
  have h : (Proc.each f (List.range m)).Ok E s x (fun _ => I (List.range m).length) :=
    Ok.each (I := fun done => I done.length) h0 (fun done a rest s' x' has hi => ?_)
  · simpa using h
  · have hlen : done.length < m := by
      have := congrArg List.length has
      simp at this
      omega
    have ha : a = done.length := by
      have := congrArg (·[done.length]?) has
      simpa [hlen] using this.symm
    rw [ha, List.length_append, List.length_singleton]
    exact hstep done.length hlen s' x' hi

end Range

/-- Only the value of the test is stored, under its two keys, for some encoding scheme. -/
def Running (c : Client) (place : Nat → Nat) (c' : Client) (w : World) : Prop :=
  ∃ scheme values, Settled V { c with encodingScheme := scheme } place values c' w ∧
    ∀ object v, values object = some v → (object = key ∨ object = newKey) ∧ v = value

def Complete (place : Nat → Nat) (key : Key) (n : Nat) (w : World) : Prop :=
  ∀ i < n, ∃ item, w (place i) (blockKey key i) = some item

/-- The first `m` blocks of an object are not stored. -/
def Absent (place : Nat → Nat) (key : Key) (m : Nat) (w : World) : Prop :=
  ∀ i < m, w (place i) (blockKey key i) = none

section Run

variable {V key newKey value} {σ : Type} {E : Env Request Reply σ} {view : σ → World} {c c' : Client}
  {x : σ} {place : Nat → Nat}

theorem Running.placed (h : Running V key newKey value c place c' (view x)) :
    c.numberOfN ≤ 20 ∧ ∀ i < c.numberOfN, place i ≠ c.networkCoreServerKey := by
  obtain ⟨scheme, values, hset, -⟩ := h
  have hp := hset.placed
  obtain ⟨fail, b, io, rfl⟩ := hset.code.exists
  exact ⟨hp.small, hp.away⟩

/-- A stored block shows the value that was last set. -/
theorem Running.exists_values (h : Running V key newKey value c place c' (view x))
    (hcomplete : Complete place key c.numberOfN (view x)) (hn : 0 < c.numberOfN) :
    ∃ scheme values, Settled V { c with encodingScheme := scheme } place values c' (view x) ∧
      (∀ object v, values object = some v → (object = key ∨ object = newKey) ∧ v = value) ∧
      values key = some value := by
  have hpl := h.placed
  obtain ⟨scheme, values, hset, hknown⟩ := h
  obtain ⟨item, hitem⟩ := hcomplete 0 hn
  obtain ⟨object, q, v, hq, hkey, -, hlast, -⟩ := hset.stripes _ (hpl.2 0 hn) _ _ hitem
  obtain ⟨rfl, -⟩ := blockKey_inj (by omega) (by simp only at hq; omega) hkey
  obtain ⟨-, rfl⟩ := hknown key v hlast
  exact ⟨scheme, values, hset, hknown, hlast⟩

variable (hE : Storing E view) (hV : FirstRowOnes V)

theorem setEncodingScheme_ok (scheme : Nat) (h : Running V key newKey value c place c' (view x)) :
    (setEncodingScheme scheme).Ok E c' x (fun _ c'' y => Running V key newKey value c place c'' (view y) ∧ y = x) := by
  obtain ⟨old, values, hset, hknown⟩ := h
  refine ⟨(), memcachedBehaviorSet c' scheme .encodingScheme, x, rfl, ⟨scheme % 2 ^ 32, values, ?_, hknown⟩, rfl⟩
  have hp := hset.placed
  have hs := hset.synced
  obtain ⟨fail, b, io, rfl⟩ := hset.code.exists
  exact ⟨rfl, ⟨hp.loaded, hp.valid, hp.small, hp.b_pos, hp.notCore, hp.node, hp.server, hp.core, hp.away, hp.rack,
    hp.fail⟩, hs, hset.splits, hset.stripes⟩

include hE hV

theorem set_ok (h : Running V key newKey value c place c' (view x)) {object : Key} (hobject : object = key ∨ object = newKey)
    (hkey : ValidKey object) (hval : Splits c.numberOfK value) :
    ((Update.set object value 0 0).prog V).Ok E c' x (fun _ c'' y =>
      Running V key newKey value c place c'' (view y) ∧ SameStorage c.networkCoreServerKey (view y)
        (World.putBlocks place object (storedItem V c.numberOfN c.numberOfK c.numberOfR value 0 0) (view x) c.numberOfN)) := by
  obtain ⟨scheme, values, hset, hknown⟩ := h
  obtain ⟨c'', y, hex, hset', hview⟩ := update_step hE hV hset (u := .set object value 0 0) ⟨hkey, hval⟩
  refine ⟨(), c'', y, hex, ⟨scheme, _, hset', fun other v hv => ?_⟩, hview⟩
  by_cases hother : other = object
  · subst hother
    simp only [Update.last, Function.update_self, Option.some.injEq] at hv
    exact ⟨hobject, hv.symm⟩
  · exact hknown other v (by simpa [Update.last, hother] using hv)

theorem delete_ok (h : Running V key newKey value c place c' (view x)) {object : Key} (hkey : ValidKey object)
    {i : Nat} (hi : i < c.numberOfN) :
    ((Update.delete object 0 i).prog V).Ok E c' x (fun _ c'' y =>
      Running V key newKey value c place c'' (view y) ∧ SameStorage c.networkCoreServerKey (view y)
        ((view x).put (place i) (blockKey object i) none)) := by
  obtain ⟨scheme, values, hset, hknown⟩ := h
  obtain ⟨c'', y, hex, hset', hview⟩ := update_step hE hV hset (u := .delete object 0 i) ⟨hkey, hi⟩
  exact ⟨(), c'', y, hex, ⟨scheme, values, hset', hknown⟩, hview⟩

theorem repair_ok (h : Running V key newKey value c place c' (view x)) (hkey : ValidKey key)
    (hcomplete : Complete place key c.numberOfN (view x)) {i : Nat} (hi : i < c.numberOfN) :
    ((Update.repair key value.length i).prog V).Ok E c' x (fun _ c'' y =>
      Running V key newKey value c place c'' (view y) ∧ ∃ item, SameStorage c.networkCoreServerKey (view y)
        ((view x).put (place i) (blockKey key i) (some item))) := by
  obtain ⟨scheme, values, hset, hknown, hlast⟩ := h.exists_values hcomplete (by omega)
  obtain ⟨c'', y, hex, hset', hview⟩ := update_step hE hV hset (u := .repair key value.length i)
    ⟨hkey, hi, ⟨value, hlast, rfl⟩, fun q hq _ _ => hcomplete q hq⟩
  refine ⟨(), c'', y, hex, ⟨scheme, values, hset', hknown⟩,
    ⟨storedBlock V c.numberOfN c.numberOfK c.numberOfR value i, 0, 86400⟩, ?_⟩
  simpa only [Update.effect, hlast] using hview

end Run

section Blocks

variable {place : Nat → Nat} {n core : Nat} {w w' : World} {key newKey : Key}

theorem Complete.same (h : Complete place key n w) (haway : ∀ i < n, place i ≠ core)
    (hw : SameStorage core w' w) : Complete place key n w' := by
  intro i hi
  rw [hw _ (haway i hi)]
  exact h i hi

theorem Absent.same {m : Nat} (h : Absent place key m w) (hm : m ≤ n) (haway : ∀ i < n, place i ≠ core)
    (hw : SameStorage core w' w) : Absent place key m w' := by
  intro i hi
  rw [hw _ (haway i (by omega))]
  exact h i hi

theorem complete_putBlocks (hn : n ≤ 20) (item : Nat → Item) (w : World) :
    Complete place key n (World.putBlocks place key item w n) :=
  fun i hi => ⟨item i, putBlocks_self (by omega) hi⟩

theorem putBlocks_other (hn : n ≤ 20) (hne : newKey ≠ key) (item : Nat → Item) (w : World) {i : Nat} (hi : i < n)
    (s : Nat) : World.putBlocks place newKey item w n s (blockKey key i) = w s (blockKey key i) := by
  apply putBlocks_of_ne
  rintro j hj ⟨-, hkey⟩
  exact hne (blockKey_inj (by omega) (by omega) hkey).1.symm

theorem put_other (hn : n ≤ 20) {object : Key} (hne : object ≠ key) (item : Option Item) (w : World) {i j : Nat}
    (hi : i < n) (hj : j < n) (s : Nat) :
    w.put (place j) (blockKey object j) item s (blockKey key i) = w s (blockKey key i) := by
  apply put_of_ne
  rintro ⟨-, hkey⟩
  exact hne (blockKey_inj (by omega) (by omega) hkey).1.symm

theorem Complete.put (h : Complete place key n w) (hn : n ≤ 20) {i : Nat} (hi : i < n) (item : Item) :
    Complete place key n (w.put (place i) (blockKey key i) (some item)) := by
  intro j hj
  by_cases hji : j = i
  · subst j
    exact ⟨item, put_self _ _ _ _⟩
  · rw [put_of_ne (fun h => hji (blockKey_inj (by omega) (by omega) h.2).2)]
    exact h j hj

/-- Deleting the next block leaves one more absent. -/
theorem Absent.succ {m : Nat} (h : Absent place key m w) (hm : m < n) (hn : n ≤ 20) :
    Absent place key (m + 1) (w.put (place m) (blockKey key m) none) := by
  intro j hj
  by_cases hjm : j = m
  · subst j
    exact put_self _ _ _ _
  · rw [put_of_ne (fun h => hjm (blockKey_inj (by omega) (by omega) h.2).2)]
    exact h j (by omega)

end Blocks

section Phases

variable {V key newKey value} {σ : Type} {E : Env Request Reply σ} {view : σ → World} {c c' : Client}
  {x : σ} {place : Nat → Nat}

/-- Between the calls: the object is stored in full and the other one is not stored. -/
structure Uploaded (V : CodingMatrix) (key newKey : Key) (value : Block) (c : Client) (place : Nat → Nat)
    (c' : Client) (w : World) : Prop where
  running : Running V key newKey value c place c' w
  complete : Complete place key c.numberOfN w
  absent : Absent place newKey c.numberOfN w

variable (hE : Storing E view) (hV : FirstRowOnes V) (hkey : ValidKey key) (hnew : ValidKey newKey)
  (hne : newKey ≠ key) (hval : Splits c.numberOfK value)
include hE hV hkey

theorem repair_uploaded (hne : newKey ≠ key) (h : Uploaded V key newKey value c place c' (view x)) {i : Nat}
    (hi : i < c.numberOfN) : ((Update.repair key value.length i).prog V).Ok E c' x
      (fun _ c'' y => Uploaded V key newKey value c place c'' (view y)) := by
  obtain ⟨hn, haway⟩ := h.running.placed
  apply (repair_ok hE hV h.running hkey h.complete hi).mono
  rintro - c'' y ⟨hrun, item, hw⟩
  refine ⟨hrun, (h.complete.put hn hi item).same haway hw, Absent.same (fun j hj => ?_) le_rfl haway hw⟩
  rw [put_other hn hne.symm (some item) (view x) hj hi]
  exact h.absent j hj

include hne hval

theorem set_uploaded (h : Running V key newKey value c place c' (view x))
    (habsent : Absent place newKey c.numberOfN (view x)) :
    ((Update.set key value 0 0).prog V).Ok E c' x
      (fun _ c'' y => Uploaded V key newKey value c place c'' (view y)) := by
  obtain ⟨hn, haway⟩ := h.placed
  apply (set_ok hE hV h (.inl rfl) hkey hval).mono
  rintro - c'' y ⟨hrun, hw⟩
  refine ⟨hrun, (complete_putBlocks hn _ _).same haway hw, Absent.same (fun j hj => ?_) le_rfl haway hw⟩
  rw [putBlocks_other hn hne.symm _ _ hj]
  exact habsent j hj

include hnew

omit hkey hval in
theorem delete_newKey_ok (h : Running V key newKey value c place c' (view x))
    (hcomplete : Complete place key c.numberOfN (view x)) :
    (Proc.each (fun i => (Update.delete newKey 0 i).prog V) (List.range c.numberOfN)).Ok E c' x
      (fun _ c'' y => Uploaded V key newKey value c place c'' (view y)) := by
  obtain ⟨hn, haway⟩ := h.placed
  apply (ok_each_range (I := fun i c'' y => Running V key newKey value c place c'' (view y) ∧
    Complete place key c.numberOfN (view y) ∧ Absent place newKey i (view y))
    ⟨h, hcomplete, fun i hi => absurd hi (by omega)⟩ ?_).mono
  · rintro - c'' y ⟨hrun, hfull, habsent⟩
    exact ⟨hrun, hfull, habsent⟩
  · rintro i hi c₁ x₁ ⟨hrun, hfull, habsent⟩
    apply (delete_ok hE hV hrun hnew hi).mono
    rintro - c₂ x₂ ⟨hrun', hw⟩
    refine ⟨hrun', Complete.same (fun j hj => ?_) haway hw, (habsent.succ hi hn).same hi haway hw⟩
    rw [put_other hn hne none _ hj hi]
    exact hfull j hj

omit hkey in
theorem set_newKey_ok (h : Running V key newKey value c place c' (view x))
    (hcomplete : Complete place key c.numberOfN (view x)) :
    ((Update.set newKey value 0 0).prog V).Ok E c' x (fun _ c'' y =>
      Running V key newKey value c place c'' (view y) ∧ Complete place key c.numberOfN (view y)) := by
  obtain ⟨hn, haway⟩ := h.placed
  apply (set_ok hE hV h (.inr rfl) hnew hval).mono
  rintro - c'' y ⟨hrun, hw⟩
  refine ⟨hrun, Complete.same (fun j hj => ?_) haway hw⟩
  rw [putBlocks_other hn hne _ _ hj]
  exact hcomplete j hj

/-- The measurement of the first scheme leaves none of the blocks that it wrote. -/
theorem writes_ok (h : Running V key newKey value c place c' (view x))
    (habsent : Absent place newKey c.numberOfN (view x)) :
    (writes V key newKey value c.numberOfN).Ok E c' x
      (fun _ c'' y => Uploaded V key newKey value c place c'' (view y)) := by
  apply (set_uploaded hE hV hkey hne hval h habsent).bind
  rintro - c₁ x₁ h₁
  apply (setEncodingScheme_ok 0 h₁.running).bind
  rintro - c₂ x₂ ⟨h₂, rfl⟩
  apply (ok_each_range (I := fun _ c'' y => Running V key newKey value c place c'' (view y) ∧
    Complete place key c.numberOfN (view y)) ⟨h₂, h₁.complete⟩
    (fun _ _ _ _ h => set_newKey_ok hE hV hnew hne hval h.1 h.2)).bind
  rintro - c₃ x₃ ⟨h₃, hfull₃⟩
  apply (ok_each_range (I := fun j c'' y => Running V key newKey value c place c'' (view y) ∧
    Complete place key c.numberOfN (view y) ∧ (0 < j → Absent place newKey c.numberOfN (view y)))
    ⟨h₃, hfull₃, fun hj => absurd hj (lt_irrefl 0)⟩ ?_).bind
  · rintro - c₄ x₄ ⟨h₄, hfull₄, habsent₄⟩
    have habsent₄ := habsent₄ (by decide)
    apply (setEncodingScheme_ok 1 h₄).bind
    rintro - c₅ x₅ ⟨h₅, rfl⟩
    exact ok_each_range (I := fun _ c'' y => Uploaded V key newKey value c place c'' (view y))
      ⟨h₅, hfull₄, habsent₄⟩ (fun _ _ _ _ h => set_uploaded hE hV hkey hne hval h.running h.absent)
  · rintro j - c₄ x₄ ⟨h₄, hfull₄, -⟩
    apply (delete_newKey_ok hE hV hnew hne h₄ hfull₄).mono
    rintro - c₅ x₅ h₅
    exact ⟨h₅.running, h₅.complete, fun _ => h₅.absent⟩

omit hnew hval in
/-- No measured repair undoes what the one before it left. -/
theorem repairs_ok (h : Uploaded V key newKey value c place c' (view x))
    (hdata : ∀ i < c.numberOfK, position c.numberOfR i < c.numberOfN) :
    (repairs V key value c.numberOfN c.numberOfK c.numberOfR).Ok E c' x
      (fun _ c'' y => Uploaded V key newKey value c place c'' (view y)) := by
  have hone : ∀ i < c.numberOfN, ∀ c' x, Uploaded V key newKey value c place c' (view x) →
      ((Update.repair key value.length i).prog V).Ok E c' x
        (fun _ c'' y => Uploaded V key newKey value c place c'' (view y)) :=
    fun i hi c' x h => repair_uploaded hE hV hkey hne h hi
  apply Ok.bind
  · apply ok_each_range (I := fun _ c'' y => Uploaded V key newKey value c place c'' (view y)) h
    intro j hj c₁ x₁ h₁
    exact ok_each_range (I := fun _ c'' y => Uploaded V key newKey value c place c'' (view y)) h₁ hone
  · rintro - c₁ x₁ h₁
    apply ok_each_range (I := fun _ c'' y => Uploaded V key newKey value c place c'' (view y)) h₁
    intro j hj c₂ x₂ h₂
    exact ok_each_range (I := fun _ c'' y => Uploaded V key newKey value c place c'' (view y)) h₂
      (fun i hi => hone _ (hdata i hi))

omit hval hne hnew in
/-- The deletes leave nothing of the two objects. -/
theorem deletes_ok (h : Uploaded V key newKey value c place c' (view x)) (hne : newKey ≠ key) :
    (deletes V key c.numberOfN).Ok E c' x (fun _ c'' y => Running V key newKey value c place c'' (view y) ∧
      Absent place key c.numberOfN (view y) ∧ Absent place newKey c.numberOfN (view y)) := by
  obtain ⟨hn, haway⟩ := h.running.placed
  apply (ok_each_range (I := fun j c'' y => Running V key newKey value c place c'' (view y) ∧
    (0 < j → Absent place key c.numberOfN (view y)) ∧ Absent place newKey c.numberOfN (view y))
    ⟨h.running, fun hj => absurd hj (lt_irrefl 0), h.absent⟩ ?_).mono
  · rintro - c₁ x₁ ⟨h₁, habsent₁, hnew₁⟩
    exact ⟨h₁, habsent₁ (by decide), hnew₁⟩
  · rintro j - c₁ x₁ ⟨h₁, -, hnew₁⟩
    apply (ok_each_range (I := fun i c'' y => Running V key newKey value c place c'' (view y) ∧
      Absent place key i (view y) ∧ Absent place newKey c.numberOfN (view y))
      ⟨h₁, fun i hi => absurd hi (by omega), hnew₁⟩ ?_).mono
    · rintro - c₂ x₂ ⟨h₂, habsent₂, hnew₂⟩
      exact ⟨h₂, fun _ => habsent₂, hnew₂⟩
    · rintro i hi c₂ x₂ ⟨h₂, habsent₂, hnew₂⟩
      apply (delete_ok hE hV h₂ hkey hi).mono
      rintro - c₃ x₃ ⟨h₃, hw⟩
      refine ⟨h₃, (habsent₂.succ hi hn).same hi haway hw, Absent.same (fun q hq => ?_) le_rfl haway hw⟩
      rw [put_other hn hne.symm none _ hq hi]
      exact hnew₂ q hq

end Phases

section Whole

variable {V key newKey value} {σ : Type} {E : Env Request Reply σ} {view : σ → World} {c c' : Client}
  {x : σ} {place : Nat → Nat}

/-- Each block of the stripe is on its server, as the encoder makes it. -/
def InPlace (V : CodingMatrix) (n k r : Nat) (place : Nat → Nat) (key : Key) (value : Block) (w : World) : Prop :=
  ∀ p < n, ∃ item, w (place p) (blockKey key p) = some item ∧ item.value = storedBlock V n k r value p

theorem Uploaded.inPlace (h : Uploaded V key newKey value c place c' (view x)) (hn : 0 < c.numberOfN) :
    InPlace V c.numberOfN c.numberOfK c.numberOfR place key value (view x) := by
  obtain ⟨scheme, values, hset, -, hlast⟩ := h.running.exists_values h.complete hn
  obtain ⟨hsmall, haway⟩ := h.running.placed
  intro p hp
  obtain ⟨item, hitem⟩ := h.complete p hp
  exact ⟨item, hitem, hset.stripes.intact hsmall haway hlast p hp item hitem⟩

theorem Running.empty (h : Running V key newKey value c place c' (view x))
    (hkey : Absent place key c.numberOfN (view x)) (hnew : Absent place newKey c.numberOfN (view x)) {s : Nat}
    (hs : s ≠ c.networkCoreServerKey) (stored : Key) : view x s stored = none := by
  obtain ⟨scheme, values, hset, hknown⟩ := h
  cases hitem : view x s stored with
  | none => rfl
  | some item =>
    obtain ⟨object, p, v, hp, rfl, rfl, hlast, -⟩ := hset.stripes s hs stored item hitem
    obtain ⟨rfl | rfl, -⟩ := hknown object v hlast
    · exact (Option.some_ne_none item (hitem.symm.trans (hkey p hp))).elim
    · exact (Option.some_ne_none item (hitem.symm.trans (hnew p hp))).elim

end Whole

end OptLrc.Benchmark
