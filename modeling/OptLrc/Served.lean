import OptLrc.Honest
import OptLrc.Observed

namespace OptLrc.Served

open OptLrc.Galois OptLrc.Memory OptLrc.Jerasure OptLrc.Encoder OptLrc.Stripe OptLrc.Split
open OptLrc.Process OptLrc.Memcached OptLrc.Exchange OptLrc.Storage OptLrc.Retrieval OptLrc.Repair
open OptLrc.Sync OptLrc.Wire OptLrc.Core OptLrc.Stored OptLrc.Keys OptLrc.Contents OptLrc.Arrival
open OptLrc.Decode OptLrc.Rebuild OptLrc.Runs OptLrc.Reads OptLrc.Gets OptLrc.Gather OptLrc.Degraded
open OptLrc.Unreadable OptLrc.Losses OptLrc.Outcomes OptLrc.Honest OptLrc.Observed

variable {n k r j : Nat}

/-- The positions of the local group of data block `j` that hold no data block. -/
def nonData (n k r j : Nat) : List Nat :=
  (List.range n).filter (fun p => p / (r + 1) = j / r ∧ ∀ s < k, position r s ≠ p)

section Positions

variable (hv : Valid n k r) (hj : j < k)
include hv hj

theorem mem_nonData {p : Nat} :
    p ∈ nonData n k r j ↔ ∃ i < askedCount n k r j, restPosition k r j i = p := by
  have hr := hv.r_pos
  obtain ⟨hg, -, hle, -⟩ := group_of_data hv hj
  have hgr := groupCount_le n r (j / r)
  have hcount : askedCount n k r j = groupCount n r (j / r) + 1 - dataCount k r j := rfl
  simp only [nonData, List.mem_filter, List.mem_range, decide_eq_true_eq]
  constructor
  · rintro ⟨hp, hgroup, hdata⟩
    obtain ⟨i, hi, ii, hii, rfl⟩ := exists_position hr p hp
    rw [group_div (le_trans hii (groupCount_le n r i))] at hgroup
    subst hgroup
    rcases Nat.lt_or_ge ii (dataCount k r j) with hlt | hge
    · unfold dataCount at hlt
      have hlt' : ii < r := by omega
      refine absurd ?_ (hdata (ii + j / r * r) (by omega))
      rw [position, Nat.add_mul_div_right _ _ hr, Nat.div_eq_of_lt hlt']
      ring
    · exact ⟨ii - dataCount k r j, by omega, by unfold restPosition; omega⟩
  · rintro ⟨i, hi, rfl⟩
    have hlt := group_lt hr hg (show dataCount k r j + i ≤ groupCount n r (j / r) by omega)
    rw [restPosition, Nat.add_assoc]
    refine ⟨by omega, group_div (by omega), fun s hs he => ?_⟩
    have hm := Nat.mod_lt s (show 0 < r by omega)
    have hds := Nat.div_add_mod' s r
    rw [position_eq] at he
    have hdiv := congrArg (· / (r + 1)) he
    have hmod := congrArg (· % (r + 1)) he
    simp only [group_div (show s % r ≤ r by omega), group_mod (show s % r ≤ r by omega),
      group_div (show dataCount k r j + i ≤ r by omega), group_mod (show dataCount k r j + i ≤ r by omega)]
      at hdiv hmod
    rw [hdiv] at hds
    unfold dataCount at hmod
    omega

theorem rest_lt {i : Nat} (hi : i < askedCount n k r j) : restPosition k r j i < n := by
  obtain ⟨hg, -, hle, -⟩ := group_of_data hv hj
  have := group_lt hv.r_pos hg le_rfl
  unfold restPosition
  unfold askedCount at hi
  omega

theorem nonData_perm : (nonData n k r j).Perm ((List.range (askedCount n k r j)).map (restPosition k r j)) := by
  refine (List.perm_ext_iff_of_nodup (List.nodup_range.filter _) (List.nodup_range.map ?_)).mpr (fun p => ?_)
  · intro a b h
    unfold restPosition at h
    omega
  · exact (mem_nonData hv hj).trans (by simp)

/-- The second fetch asks for the rest of the group when the group holds `r` data blocks. -/
theorem asked_eq_rest (hn : n ≤ maxNodes) (hfull : r % 2560 = dataCount k r j) {i : Nat}
    (hi : i < askedCount n k r j) : askedPosition r j i = restPosition k r j i := by
  have hn' : n ≤ 20 := hn
  have hlt := rest_lt hv hj hi
  unfold askedPosition restPosition at *
  omega

theorem full_of_asked_perm (hn : n ≤ maxNodes)
    (h : ∀ i < askedCount n k r j, ∃ i' < askedCount n k r j, askedPosition r j i = restPosition k r j i') :
    r % 2560 = dataCount k r j := by
  have hn' : n ≤ 20 := hn
  obtain ⟨-, -, hle, -⟩ := group_of_data hv hj
  have hcount : 0 < askedCount n k r j := by
    unfold askedCount
    omega
  have hle' := askedCount_le hv hj
  obtain ⟨a, ha, hfirst⟩ := h 0 hcount
  obtain ⟨b, hb, hlast⟩ := h (askedCount n k r j - 1) (by omega)
  have hlta := rest_lt hv hj ha
  have hltb := rest_lt hv hj hb
  unfold askedPosition restPosition at *
  omega

end Positions

variable {σ : Type} {E : Env Request Reply σ} {view : σ → World} {log : σ → List (Nat × Request)}
  {V : CodingMatrix} {c : Client} {x : σ} {place : Nat → Nat} {key : Key} {value : Block}

/-- A get serves the loss of data block `j`: it returns the value, its second fetch asks for the
blocks of the group that hold no data, and it stores the lost block again. -/
def ServesDegraded (E : Env Request Reply σ) (view : σ → World) (log : σ → List (Nat × Request))
    (V : CodingMatrix) (place : Nat → Nat) (key : Key) (value : Block) (j : Nat) (c : Client) (x : σ) : Prop :=
  ∃ flags c' y, (memcachedGet V key value.length).exec E c x =
      (.ok (⟨some (value.map some), value.length, .success, flags⟩, c'), y) ∧
    ((quietKeys (log y)).drop ((quietKeys (log x)).length + c.numberOfK)).Perm
      ((nonData c.numberOfN c.numberOfK c.numberOfR j).map (fun p => (place p, blockKey key p))) ∧
    ∃ item, item.value = storedBlock V c.numberOfN c.numberOfK c.numberOfR value (position c.numberOfR j) ∧
      SameStorage c.networkCoreServerKey (view y) ((view x).put (place (position c.numberOfR j))
        (blockKey key (position c.numberOfR j)) (some item))

theorem quietKeys_mget_blocks (hlog : Logging E log) (hp : Placed c place) (pos : Nat → Nat) {m : Nat}
    (hpos : ∀ i < m, pos i < c.numberOfN) (key : Key) (x : σ) :
    ∃ asked, quietKeys (log (mgetState E (blockRoute place) (blockKeys key pos m) x c.serverCount)) =
        quietKeys (log x) ++ asked ∧
      asked.Perm ((List.range m).map (fun i => (place (pos i), blockKey key (pos i)))) := by
  have hsmall : c.numberOfN ≤ 20 := hp.small
  obtain ⟨asked, he, hperm⟩ := quietKeys_mgetState hlog (route_lt hp hpos key) x
  refine ⟨asked, he, hperm.trans (List.Perm.of_eq ?_)⟩
  rw [blockKeys, List.map_map]
  refine List.map_congr_left (fun i hi => ?_)
  have := hpos i (List.mem_range.mp hi)
  simp only [Function.comp_apply]
  rw [blockRoute_blockKey (by omega)]

/-- The requests of the second fetch. -/
theorem quietKeys_degraded (hlog : Logging E log) (hp : Placed c place)
    (hlt : ∀ i < askedCount c.numberOfN c.numberOfK c.numberOfR j,
      askedPosition c.numberOfR j i < c.numberOfN) {bytes : Block} {y : σ}
    (h : DegradedTrace E c place key j bytes x y) :
    ((quietKeys (log y)).drop ((quietKeys (log x)).length + c.numberOfK)).Perm
      ((List.range (askedCount c.numberOfN c.numberOfK c.numberOfR j)).map
        (fun i => (place (askedPosition c.numberOfR j i), blockKey key (askedPosition c.numberOfR j i)))) := by
  obtain ⟨y1, y2, y3, y4, h1, h2, h3, h4, rfl⟩ := h
  obtain ⟨first, hfirst, hperm⟩ := quietKeys_mget_blocks hlog hp (position c.numberOfR)
    (m := c.numberOfK) (fun s hs => position_lt hp.valid hs) key x
  obtain ⟨second, hsecond, hperm'⟩ := quietKeys_mget_blocks hlog hp _ hlt key y2
  have hlen : first.length = c.numberOfK := by simpa using hperm.length_eq
  rw [quietKeys_serve hlog rfl, quietKeys_coreOnly hlog h4, quietKeys_picks hlog h3, hsecond,
    quietKeys_coreOnly hlog h2, quietKeys_picks hlog h1, hfirst,
    show (quietKeys (log x)).length + c.numberOfK = (quietKeys (log x) ++ first).length by
      rw [List.length_append, hlen], List.drop_left]
  exact hperm'

theorem hasData_iff (hp : Placed c place)
    (hlost : ∀ p < c.numberOfN, (∃ item, view x (place p) (blockKey key p) = some item) ↔
      p ≠ position c.numberOfR j) (s : Nat) (hs : s < c.numberOfK) :
    HasData (view x) place key c.numberOfR s ↔ s ≠ j :=
  (hlost _ (position_lt hp.valid hs)).trans
    ⟨fun h hsj => h (by rw [hsj]), fun h hpos => h ((position_strictMono _).injective hpos)⟩

section Degraded

variable (hE : Storing E view) (hlog : Logging E log) (hV : FirstRowOnes V) (hp : Placed c place)
  (hs : Io.Synced c.serverCount c.io) (hkey : ValidKey key) (hval : Splits c.numberOfK value)
  (hint : Intact V c.numberOfN c.numberOfK c.numberOfR place key value (view x)) (hj : j < c.numberOfK)
  (hlost : ∀ p < c.numberOfN, (∃ item, view x (place p) (blockKey key p) = some item) ↔
    p ≠ position c.numberOfR j)
include hE hlog hV hp hs hkey hval hint hj hlost

theorem serves_of_full (hfull : c.numberOfR % 2560 = dataCount c.numberOfK c.numberOfR j) :
    ServesDegraded E view log V place key value j c x := by
  have hv := hp.valid
  have hmem : ∀ i < askedCount c.numberOfN c.numberOfK c.numberOfR j,
      askedPosition c.numberOfR j i ∈ nonData c.numberOfN c.numberOfK c.numberOfR j := fun i hi =>
    (mem_nonData hv hj).mpr ⟨i, hi, (asked_eq_rest hv hj hp.small hfull hi).symm⟩
  have hlt : ∀ i < askedCount c.numberOfN c.numberOfK c.numberOfR j,
      askedPosition c.numberOfR j i < c.numberOfN := fun i hi =>
    List.mem_range.mp (List.mem_filter.mp (hmem i hi)).1
  have hdata : ∀ i < askedCount c.numberOfN c.numberOfK c.numberOfR j, ∀ s < c.numberOfK,
      position c.numberOfR s ≠ askedPosition c.numberOfR j i := by
    intro i hi
    have := (List.mem_filter.mp (hmem i hi)).2
    simp only [decide_eq_true_eq] at this
    exact this.2
  have hcount : 0 < askedCount c.numberOfN c.numberOfK c.numberOfR j := by
    obtain ⟨-, -, hle, -⟩ := group_of_data hv hj
    unfold askedCount
    omega
  have hans : Answered c place key value j (view x) := by
    refine ⟨hlt, fun i hi => (hlost _ (hlt i hi)).mpr (Ne.symm (hdata i hi j hj)), fun h => ?_⟩
    rw [lastDataIndex_eq hv.k_pos] at h
    exact absurd h.symm (hdata _ (Nat.sub_lt hcount Nat.one_pos) _ (Nat.sub_lt hv.k_pos Nat.one_pos))
  have hagrees : Agrees V c.numberOfN c.numberOfK c.numberOfR value j := by
    unfold Agrees blockSum
    congr 1
    refine combine_congr (fun _ _ => rfl) (fun i hi => ?_)
    simp only [asked_eq_rest hv hj hp.small hfull hi]
  obtain ⟨flags, io, y, hget, htrace, hview⟩ := memcachedGet_degraded hE hp hs hkey.nulFree hkey.le hval hint hj
    (hasData_iff hp hlost) hV hans
  have hbytes := (decodedBytes_eq_iff hv hval hj).mpr hagrees
  rw [hbytes, ← storedBlock_eq_piece (V := V) hv hval hj] at hview
  rw [(patched_eq_iff hval hj (length_decodedBytes V _ _ value j hv.k_pos)).mpr hbytes] at hget
  refine ⟨flags, _, y, hget, ?_, _, rfl, hview⟩
  refine (quietKeys_degraded hlog hp hlt htrace).trans ?_
  have hmap : (List.range (askedCount c.numberOfN c.numberOfK c.numberOfR j)).map
      (fun i => (place (askedPosition c.numberOfR j i), blockKey key (askedPosition c.numberOfR j i))) =
      ((List.range (askedCount c.numberOfN c.numberOfK c.numberOfR j)).map
        (restPosition c.numberOfK c.numberOfR j)).map (fun p => (place p, blockKey key p)) := by
    rw [List.map_map]
    refine List.map_congr_left (fun i hi => ?_)
    simp only [Function.comp_apply, asked_eq_rest hv hj hp.small hfull (List.mem_range.mp hi)]
  rw [hmap]
  exact ((nonData_perm hv hj).map _).symm

/-- A get serves the loss of a data block exactly when the block's group holds `r` data blocks. -/
theorem servesDegraded_iff (honly : PlacesOnly c) :
    ServesDegraded E view log V place key value j c x ↔
      c.numberOfR % 2560 = dataCount c.numberOfK c.numberOfR j := by
  have hv := hp.valid
  have hsmall : c.numberOfN ≤ 20 := hp.small
  refine ⟨?_, serves_of_full hE hlog hV hp hs hkey hval hint hj hlost⟩
  rintro ⟨flags, c', y, hget, hfetch, -⟩
  have hmiss := hasData_iff hp hlost
  by_cases hans : Answered c place key value j (view x)
  · obtain ⟨flags', io, y', hget', htrace, -⟩ := memcachedGet_degraded hE hp hs hkey.nulFree hkey.le hval hint hj
      hmiss hV hans
    rw [hget] at hget'
    obtain rfl : y = y' := (Prod.mk.inj hget').2
    have hperm := (quietKeys_degraded hlog hp hans.lt htrace).symm.trans hfetch
    refine full_of_asked_perm hv hj hp.small (fun i hi => ?_)
    obtain ⟨p, hp', he⟩ := List.mem_map.mp (hperm.subset (List.mem_map.mpr ⟨i, List.mem_range.mpr hi, rfl⟩))
    obtain ⟨i', hi', rfl⟩ := (mem_nonData hv hj).mp hp'
    have hlt := rest_lt hv hj hi'
    have hlt' := hans.lt i hi
    have hk := (Prod.mk.inj he).2
    exact ⟨i', hi', ((blockKey_inj (by omega) (by omega) hk).2).symm⟩
  · obtain ⟨e, y', hfault⟩ := memcachedGet_unanswered hE hp hs hkey.nulFree hkey.le hval hint hj hmiss hV honly
      hans
    rw [hget] at hfault
    cases hfault

end Degraded

theorem servesDegraded_iff_sample :
    ServesDegraded loggingEnv Prod.fst Prod.snd (fun _ _ _ _ => 1) id [1] (List.replicate 17 1) 0
      (sampleClient 5 3 2) (storedWithout (fun _ _ _ _ => 1) 5 3 2 id [1] (List.replicate 17 1) [0], []) := by
  have hsmall : 5 ≤ maxNodes := by decide
  refine (servesDegraded_iff
    (x := (storedWithout (fun _ _ _ _ => 1) 5 3 2 id [1] (List.replicate 17 1) [0], [])) storing_loggingEnv
    logging_loggingEnv firstRowOnes_one
    (placed_sampleClient (n := 5) (k := 3) (r := 2) ⟨by decide, by decide, by decide⟩ hsmall)
    (synced_sampleClient 5 3 2) ⟨by decide, by decide, by decide⟩ ⟨by decide, by decide⟩
    (intact_storedWithout (fun _ _ _ _ => 1) 3 2 id [1] (List.replicate 17 1) [0] hsmall) (by decide)
    (fun p hp => ?_) (placesOnly_sampleClient 5 3 2)).mpr (by decide)
  exact (storedWithout_isSome (fun _ _ _ _ => 1) 3 2 id [1] (List.replicate 17 1) [0] hsmall hp).trans
    (by simp [position])

/-- The last data block of a group that it shares with parities is not served: the get returns
another value. -/
theorem not_servesDegraded_nine :
    ¬ ServesDegraded loggingEnv Prod.fst Prod.snd threeMatrix id [1] (List.replicate 17 1) 2
      (sampleClient 9 3 2) (storedWithout threeMatrix 9 3 2 id [1] (List.replicate 17 1) [3], []) := by
  rintro ⟨flags, c', y, hget, -⟩
  have hout : ((memcachedGet threeMatrix [1] 17).exec loggingEnv (sampleClient 9 3 2)
      (storedWithout threeMatrix 9 3 2 id [1] (List.replicate 17 1) [3], [])).1.toOption.map
        (fun r => r.1.value) =
      some (some ((List.replicate 16 1 ++ [Byte.ofNat 150]).map some)) := by
    decide +kernel
  rw [show (List.replicate 17 (1 : Byte)).length = 17 from rfl] at hget
  rw [hget] at hout
  simp only [Except.toOption, Option.map_some, Option.some.injEq] at hout
  exact absurd hout (by decide)

end OptLrc.Served
