import OptLrc.Contents
import OptLrc.Lookup

namespace OptLrc.Arrival

open OptLrc.Galois OptLrc.Memory OptLrc.Jerasure OptLrc.Encoder OptLrc.Process OptLrc.Memcached
open OptLrc.Exchange OptLrc.Retrieval OptLrc.Sync OptLrc.Wire OptLrc.Core OptLrc.Fetch OptLrc.Lookup
open OptLrc.Stored OptLrc.Writes OptLrc.Keys OptLrc.Contents

theorem exists_map_perm {α β : Type} {f : α → β} {l' : List β} {l : List α} (h : l'.Perm (l.map f)) :
    ∃ l'' : List α, l''.Perm l ∧ l' = l''.map f := by
  induction l' generalizing l with
  | nil =>
    rw [List.nil_perm, List.map_eq_nil_iff] at h
    exact ⟨[], by rw [h], rfl⟩
  | cons b l' ih =>
    obtain ⟨a, ha, rfl⟩ := List.mem_map.mp (h.subset (List.mem_cons_self (l := l')))
    obtain ⟨s, t, rfl⟩ := List.append_of_mem ha
    have h' : l'.Perm ((s ++ t).map f) := by
      refine List.Perm.cons_inv (a := f a) (h.trans ?_)
      simp only [List.map_append, List.map_cons]
      exact List.perm_middle
    obtain ⟨l'', hp, rfl⟩ := ih h'
    exact ⟨a :: l'', (hp.cons a).trans List.perm_middle.symm, rfl⟩

/-- The server that a block key names. -/
def blockRoute (place : Nat → Nat) (key : Key) : Nat :=
  match suffixIndex key with
  | .ok i => place i
  | .error _ => 0

/-- The keys of several blocks of an object. -/
def blockKeys (key : Key) (pos : Nat → Nat) (m : Nat) : List Key :=
  (List.range m).map (fun i => blockKey key (pos i))

/-- Those of the blocks that are there. -/
def present (w : World) (place : Nat → Nat) (key : Key) (pos : Nat → Nat) (m : Nat) : List (Nat × Item) :=
  (List.range m).filterMap (fun i => (w (place (pos i)) (blockKey key (pos i))).map (fun item => (i, item)))

def arrival (key : Key) (pos : Nat → Nat) (a : Nat × Item) : Result :=
  ⟨blockKey key (pos a.1), a.2.flags, a.2.value⟩

variable {σ β : Type} {E : Env Request Reply σ} {view : σ → World} {c : Client} {x : σ}
  {place pos : Nat → Nat} {key : Key} {m : Nat}

theorem mem_present {w : World} {a : Nat × Item} :
    a ∈ present w place key pos m ↔ a.1 < m ∧ w (place (pos a.1)) (blockKey key (pos a.1)) = some a.2 := by
  simp only [present, List.mem_filterMap, List.mem_range, Option.map_eq_some_iff]
  constructor
  · rintro ⟨i, hi, item, hw, rfl⟩
    exact ⟨hi, hw⟩
  · rintro ⟨hi, hw⟩
    exact ⟨a.1, hi, a.2, hw, rfl⟩

theorem mem_done_cons {done : List Nat} {a : Nat × Item} {order : List (Nat × Item)} {i : Nat} :
    ((i = a.1 ∨ i ∈ done) ∨ ∃ item, (i, item) ∈ order) ↔ i ∈ done ∨ ∃ item, (i, item) ∈ a :: order := by
  constructor
  · rintro ((rfl | h) | ⟨item, h⟩)
    · exact Or.inr ⟨a.2, by simp⟩
    · exact Or.inl h
    · exact Or.inr ⟨item, by simp [h]⟩
  · rintro (h | ⟨item, h⟩)
    · exact Or.inl (Or.inr h)
    · rcases List.mem_cons.mp h with rfl | h
      · exact Or.inl (Or.inl rfl)
      · exact Or.inr ⟨item, h⟩

theorem length_present_le (w : World) : (present w place key pos m).length ≤ m :=
  (List.length_filterMap_le _ _).trans (by rw [List.length_range])

theorem blockRoute_blockKey {i : Nat} (hi : i < 100) : blockRoute place (blockKey key i) = place i := by
  rw [blockRoute, suffixIndex_blockKey key hi]

theorem routeKey_blockKey (hp : Placed c place) (count : Nat) {i : Nat} (hi : i < c.numberOfN) :
    routeKey c count (blockKey key i) = .ok (blockRoute place (blockKey key i)) := by
  have hsmall : c.numberOfN ≤ 20 := hp.small
  have hnode := hp.nodeServer hi
  unfold routeKey
  rw [blockRoute_blockKey (by omega), suffixIndex_blockKey key (by omega), ok_bind, hnode]
  split
  · rfl
  · rw [if_neg (by simp [hp.notCore])]

section Mget

variable (hp : Placed c place) (hpos : ∀ i < m, pos i < c.numberOfN)
include hp hpos

theorem hitList_blockKeys (key : Key) (w : World) :
    hitList w (blockRoute place) (blockKeys key pos m) =
      (present w place key pos m).map (fun a => Reply.hit .getkq (blockKey key (pos a.1)) a.2) := by
  have hsmall : c.numberOfN ≤ 20 := hp.small
  unfold hitList blockKeys present
  rw [List.filterMap_map, List.map_filterMap]
  refine List.filterMap_congr (fun i hi => ?_)
  have := hpos i (List.mem_range.mp hi)
  simp only [Function.comp_apply, Option.map_map]
  rw [blockRoute_blockKey (by omega)]
  rfl

theorem route_lt (key : Key) : ∀ k ∈ blockKeys key pos m, blockRoute place k < c.serverCount := by
  have hsmall : c.numberOfN ≤ 20 := hp.small
  intro k hk
  obtain ⟨i, hi, rfl⟩ : ∃ i < m, blockKey key (pos i) = k := by simpa [blockKeys] using hk
  have := hpos i hi
  rw [blockRoute_blockKey (by omega)]
  exact hp.server _ this

/-- A multi-get of blocks of an object. -/
theorem exec_mget_blocks (hs : Io.Synced c.serverCount c.io) (hkey : key.length ≤ 248) (hm : 0 < m) :
    ∃ result, (memcachedMget (blockKeys key pos m)).exec E c x =
      (.ok (.success, { c with io := ⟨mgetConn E (blockRoute place) (blockKeys key pos m) x, result⟩ }),
        mgetState E (blockRoute place) (blockKeys key pos m) x c.serverCount) := by
  have hmem : ∀ k ∈ blockKeys key pos m, ∃ i < m, blockKey key (pos i) = k := by
    intro k hk
    simpa [blockKeys] using hk
  refine exec_memcachedMget E x hs (fun hnil => ?_) (fun k hk => ?_) (fun k hk => ?_)
  · simp only [blockKeys, List.map_eq_nil_iff, List.range_eq_nil] at hnil
    omega
  · obtain ⟨i, -, rfl⟩ := hmem k hk
    exact keyTest_blockKey hkey _
  · obtain ⟨i, hi, rfl⟩ := hmem k hk
    exact routeKey_blockKey hp _ (hpos i hi)

/-- The fetch loop runs its body over the blocks that are there, in some order. -/
theorem exec_fetch_blocks (body : β → Result → Except Fault β) (st : β) (w : World)
    (hc : c.io.conn = pendingConn (mgetPending w (blockRoute place) (blockKeys key pos m))) :
    ∃ order : List (Nat × Item), order.Perm (present w place key pos m) ∧
      ((∃ e y, E.Picks x y ∧ order.foldlM (fun st a => body st (arrival key pos a)) st = .error e ∧
        (fetchEach body m st).exec E c x = (.error e, y)) ∨
      ∃ st' io y, E.Picks x y ∧ Io.Synced c.serverCount io ∧
        order.foldlM (fun st a => body st (arrival key pos a)) st = .ok st' ∧
        (fetchEach body m st).exec E c x = (.ok (st', { c with io := io }), y)) := by
  have hlt := route_lt hp hpos key
  have hhits := hitsOf_mgetPending w hlt
  rw [hitList_blockKeys hp hpos] at hhits
  have hlen : (hitsOf c.serverCount (mgetPending w (blockRoute place) (blockKeys key pos m))).length ≤
      m := by
    rw [hhits.length_eq, List.length_map]
    exact length_present_le w
  obtain ⟨order, hperm, h⟩ := exec_fetchEach E body m st c x _ hc (pending_mgetPending hlt) hlen
  obtain ⟨order', hperm', rfl⟩ := exists_map_perm (hperm.trans hhits)
  refine ⟨order', hperm', ?_⟩
  simp only [List.foldlM_map] at h
  exact h

/-- A multi-get of blocks of an object and the loop that fetches them: the loop runs its body over
the blocks that are there, in some order. -/
theorem exec_mget_fetch (hE : Storing E view) (hs : Io.Synced c.serverCount c.io) (hkey : key.length ≤ 248)
    (hm : 0 < m) (body : β → Result → Except Fault β) (st : β) :
    ∃ (io : Io) (order : List (Nat × Item)), (memcachedMget (blockKeys key pos m)).exec E c x =
        (.ok (.success, { c with io := io }),
        mgetState E (blockRoute place) (blockKeys key pos m) x c.serverCount) ∧
      order.Perm (present (view x) place key pos m) ∧
      ((∃ e y, order.foldlM (fun st a => body st (arrival key pos a)) st = .error e ∧
        (fetchEach body m st).exec E { c with io := io }
          (mgetState E (blockRoute place) (blockKeys key pos m) x c.serverCount) = (.error e, y)) ∨
      ∃ st' io' y, E.Picks (mgetState E (blockRoute place) (blockKeys key pos m) x c.serverCount) y ∧
        Io.Synced c.serverCount io' ∧
        order.foldlM (fun st a => body st (arrival key pos a)) st = .ok st' ∧
        (fetchEach body m st).exec E { c with io := io }
          (mgetState E (blockRoute place) (blockKeys key pos m) x c.serverCount) =
            (.ok (st', { c with io := io' }), y)) := by
  obtain ⟨result, hmget⟩ := exec_mget_blocks (E := E) (x := x) hp hpos hs hkey hm
  rw [mgetConn_eq hE] at hmget
  obtain ⟨order, hperm, hfetch⟩ := exec_fetch_blocks (E := E)
    (x := mgetState E (blockRoute place) (blockKeys key pos m) x c.serverCount)
    (c := { c with io := ⟨pendingConn (mgetPending (view x) (blockRoute place) (blockKeys key pos m)), result⟩ })
    (hp.io _) hpos body st (view x) rfl
  refine ⟨_, order, hmget, hperm, ?_⟩
  rcases hfetch with ⟨e, y, -, hfold, hex⟩ | hok
  · exact Or.inl ⟨e, y, hfold, hex⟩
  · exact Or.inr hok

/-- The same with an invariant of the loop's variables, over the blocks that have arrived. -/
theorem exec_fetch_invariant (hE : Storing E view) (hs : Io.Synced c.serverCount c.io)
    (hkey : key.length ≤ 248) (hm : 0 < m) (body : β → Result → Except Fault β) (st : β)
    {I : List Nat → β → Prop} (h0 : I [] st)
    (hstep : ∀ done st i item, i < m → view x (place (pos i)) (blockKey key (pos i)) = some item →
      I done st → ∃ st', body st (arrival key pos (i, item)) = .ok st' ∧ I (i :: done) st') :
    ∃ io io' z done st', (memcachedMget (blockKeys key pos m)).exec E c x =
        (.ok (.success, { c with io := io }),
          mgetState E (blockRoute place) (blockKeys key pos m) x c.serverCount) ∧
      (fetchEach body m st).exec E { c with io := io }
          (mgetState E (blockRoute place) (blockKeys key pos m) x c.serverCount) =
        (.ok (st', { c with io := io' }), z) ∧
      Io.Synced c.serverCount io' ∧
      E.Picks (mgetState E (blockRoute place) (blockKeys key pos m) x c.serverCount) z ∧
      I done st' ∧ ∀ i < m, i ∈ done ↔ ∃ item, view x (place (pos i)) (blockKey key (pos i)) = some item := by
  have hfold : ∀ (order : List (Nat × Item)) (done : List Nat) (st : β),
      (∀ a ∈ order, a ∈ present (view x) place key pos m) → I done st →
      ∃ done' st', order.foldlM (fun st a => body st (arrival key pos a)) st = .ok st' ∧ I done' st' ∧
        ∀ i, i ∈ done' ↔ i ∈ done ∨ ∃ item, (i, item) ∈ order := by
    intro order
    induction order with
    | nil => exact fun done st _ hi => ⟨done, st, rfl, hi, by simp⟩
    | cons a order ih =>
      intro done st hmem hi
      obtain ⟨hlt, hitem⟩ := mem_present.mp (hmem a (by simp))
      obtain ⟨st1, he, hi1⟩ := hstep done st a.1 a.2 hlt hitem hi
      obtain ⟨done', st', he', hi', hdone⟩ := ih (a.1 :: done) st1 (fun b hb => hmem b (by simp [hb])) hi1
      refine ⟨done', st', ?_, hi', fun i => ?_⟩
      · rw [List.foldlM_cons, he, ok_bind, he']
      · rw [hdone, List.mem_cons, mem_done_cons]
  obtain ⟨io, order, hmget, hperm, hfetch⟩ := exec_mget_fetch hp hpos (x := x) hE hs hkey hm body st
  obtain ⟨done, st', he, hi, hdone⟩ := hfold order [] st (fun a ha => hperm.subset ha) h0
  rcases hfetch with ⟨e, y, he', -⟩ | ⟨st'', io', z, hpicks, hs', he', hex⟩
  · rw [he] at he'
    cases he'
  · rw [he] at he'
    cases he'
    refine ⟨io, io', z, done, st', hmget, hex, hs', hpicks, hi, fun i hlt => ?_⟩
    rw [hdone]
    simp only [List.not_mem_nil, false_or, hperm.mem_iff, mem_present]
    exact ⟨fun ⟨item, _, h⟩ => ⟨item, h⟩, fun ⟨item, h⟩ => ⟨item, hlt, h⟩⟩

end Mget

end OptLrc.Arrival
