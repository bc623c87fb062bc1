import OptLrc.Continuum
import Mathlib.Data.Int.Order.Basic

namespace OptLrc.Routing

open OptLrc.Galois OptLrc.Memory OptLrc.Encoder OptLrc.Memcached OptLrc.Clockwise OptLrc.Continuum

/-- The servers that an update at `now` puts on the continuum. -/
def liveHosts (autoEject : Bool) (now : Nat) (servers : List Server) : List (Host × Nat) :=
  (servers.zipIdx.filter (fun x => isLive autoEject now x.1)).map (fun x => (x.1.host, x.2))

def points (D : Distribution) (ring : List (Host × Nat)) : List ContinuumItem :=
  ring.flatMap (fun x => (List.range pointsPerServer).map (fun p => ⟨x.2, point D x.1 p⟩))

/-- The continuum holds the points of some servers, in order. -/
structure Built (D : Distribution) (ring : List (Host × Nat)) (k : Ketama) : Prop where
  nonempty : ring ≠ []
  sorted : ∃ items : List ContinuumItem, items.Perm (points D ring) ∧ items.Pairwise (fun a b => a.value.toNat ≤ b.value.toNat) ∧
    items.length = k.continuumPointsCounter ∧ k.continuum.take k.continuumPointsCounter = items.map some

/-- Keys may be routed to a server. -/
def OnContinuum (k : Ketama) (i : Nat) : Prop :=
  ∃ l < k.continuumPointsCounter, ∃ value, k.continuum[l]? = some (some ⟨i, value⟩)

def Allocated (k : Ketama) : Prop := k.continuum.length = k.continuumCount * pointsPerServer

/-- The server has the first point at or after `hash`, going round. -/
def Routes (D : Distribution) (ring : List (Host × Nat)) (hash : BitVec 32) (i : Nat) : Prop :=
  ∃ host p, (host, i) ∈ ring ∧ p < pointsPerServer ∧
    ∀ x ∈ ring, ∀ q < pointsPerServer, point D host p - hash ≤ point D x.1 q - hash

/-- What `memcached_server_add` lets in. -/
structure Fits (host : Host) : Prop where
  hostname : host.hostname.length < maxHost
  port : host.port < 2 ^ 16

variable {D : Distribution} {ring : List (Host × Nat)} {k : Ketama} {m : Root} {now : Nat} {servers : List Server}

section Count

theorem foldl_countTurn {count : Nat × Int} (h : count.2 = 0 ∨ (now : Int) < count.2) :
    (servers.foldl (countTurn now) count).1 = count.1 + servers.countP (isLive true now) ∧
      ((servers.foldl (countTurn now) count).2 = 0 ∨ (now : Int) < (servers.foldl (countTurn now) count).2) ∧
      (count.2 ≠ 0 → (servers.foldl (countTurn now) count).2 ≠ 0 ∧
        (servers.foldl (countTurn now) count).2 ≤ count.2) ∧
      ∀ server ∈ servers, (now : Int) < server.nextRetry → (servers.foldl (countTurn now) count).2 ≠ 0 ∧
        (servers.foldl (countTurn now) count).2 ≤ server.nextRetry := by
  induction servers generalizing count with
  | nil => exact ⟨rfl, h, fun hne => ⟨hne, le_rfl⟩, by simp⟩
  | cons server servers ih =>
    rw [List.foldl_cons]
    by_cases hlive : server.nextRetry ≤ now
    · have hturn : countTurn now count server = (count.1 + 1, count.2) := if_pos hlive
      obtain ⟨hcount, hnow, hle, hall⟩ := @ih (count.1 + 1, count.2) h
      rw [hturn]
      refine ⟨?_, hnow, hle, fun other hother hlt => ?_⟩
      · rw [hcount, List.countP_cons_of_pos (by simpa [isLive] using hlive)]
        exact Nat.add_right_comm _ _ _
      · rcases List.mem_cons.mp hother with rfl | hmem
        · omega
        · exact hall other hmem hlt
    · have hdead : ¬ isLive true now server = true := by simpa [isLive] using hlive
      by_cases hfirst : count.2 = 0 ∨ server.nextRetry < count.2
      · have hturn : countTurn now count server = (count.1, server.nextRetry) := by
          rw [countTurn, if_neg hlive, if_pos hfirst]
        obtain ⟨hcount, hnow, hle, hall⟩ := @ih (count.1, server.nextRetry) (Or.inr (by omega))
        have hs := hle (show server.nextRetry ≠ 0 by omega)
        rw [hturn]
        refine ⟨by rw [hcount, List.countP_cons_of_neg hdead], hnow, fun hne => ⟨hs.1, ?_⟩, fun other hother hlt => ?_⟩
        · exact hs.2.trans (by omega)
        · rcases List.mem_cons.mp hother with rfl | hmem
          · exact hs
          · exact hall other hmem hlt
      · have hturn : countTurn now count server = count := by rw [countTurn, if_neg hlive, if_neg hfirst]
        obtain ⟨hcount, hnow, hle, hall⟩ := ih h
        have hs := hle (by omega)
        rw [hturn]
        refine ⟨by rw [hcount, List.countP_cons_of_neg hdead], hnow, hle, fun other hother hlt => ?_⟩
        rcases List.mem_cons.mp hother with rfl | hmem
        · exact ⟨hs.1, by omega⟩
        · exact hall other hmem hlt

/-- How many servers are counted, and a time before which none of the others has its next try. -/
theorem countLive_spec (now : Nat) (servers : List Server) :
    (countLive now servers).1 = servers.countP (isLive true now) ∧
      ((countLive now servers).2 = 0 ∨ (now : Int) < (countLive now servers).2) ∧
      ∀ server ∈ servers, (now : Int) < server.nextRetry →
        (countLive now servers).2 ≠ 0 ∧ (countLive now servers).2 ≤ server.nextRetry := by
  obtain ⟨hcount, hnow, -, hall⟩ := @foldl_countTurn now servers (0, 0) (Or.inl rfl)
  exact ⟨hcount.trans (Nat.zero_add _), hnow, hall⟩

end Count

section Update

theorem length_decimal_le {n b : Nat} (hb : 0 < b) (h : n < 10 ^ b) : (decimal n).length ≤ b := by
  rw [decimal, List.length_map]
  exact (Nat.length_toDigits_le_iff (by decide) hb).mpr h

/-- No text of a point is cut off. -/
theorem length_sortHost_lt {host : Host} (h : Fits host) {p : Nat} (hp : p < pointsPerServer) :
    (sortHost D.isSpy host p).length < sortHostSize D.isSpy := by
  have hhost := h.hostname
  have hport := @length_decimal_le host.port 5 (by decide) (lt_trans h.port (by decide))
  have hpoint := @length_decimal_le p 2 (by decide) hp
  rw [sortHost, sortHostSize]
  split
  · simp only [List.length_cons, List.length_append, maxHost, maxServ] at *
    omega
  · split
    · simp only [List.length_cons, List.length_append, maxHost, maxServ] at *
      omega
    · simp only [List.length_cons, List.length_append, maxHost, maxServ] at *
      omega

theorem putPoints_eq {host : Host} (h : Fits host) (hostIndex : Nat) {ps : List Nat} (hps : ∀ p ∈ ps, p < pointsPerServer)
    {continuum : Cells ContinuumItem} {i : Nat} (hroom : i + ps.length ≤ continuum.length) :
    ∃ continuum', putPoints D host hostIndex ps continuum i = .ok (continuum', some (i + ps.length)) ∧
      continuum'.length = continuum.length ∧
      continuum'.take (i + ps.length) = continuum.take i ++ (ps.map (fun p => ⟨hostIndex, point D host p⟩)).map some := by
  induction ps generalizing continuum i with
  | nil => exact ⟨continuum, rfl, rfl, by simp⟩
  | cons p ps ih =>
    rw [List.length_cons] at hroom
    have hfit := @length_sortHost_lt D host h p (hps p (by simp))
    obtain ⟨continuum', he, hlength, htake⟩ := @ih (fun q hq => hps q (by simp [hq]))
      (continuum.set i (some ⟨hostIndex, point D host p⟩)) (i + 1) (by rw [List.length_set]; omega)
    refine ⟨continuum', ?_, by rw [hlength, List.length_set], ?_⟩
    · rw [putPoints, if_neg (Nat.not_le.mpr hfit), Cells.write_eq _ (by omega), ok_bind, he, List.length_cons,
        Nat.add_right_comm, Nat.add_assoc]
    · rw [List.length_cons, show i + (ps.length + 1) = i + 1 + ps.length by omega, htake, List.map_cons, List.map_cons,
        List.take_add_one, List.take_set_of_le le_rfl, List.getElem?_set_self (by omega)]
      simp

theorem putServers_eq (autoEject : Bool) {list : List (Server × Nat)} (hfits : ∀ x ∈ list, Fits x.1.host)
    {continuum : Cells ContinuumItem} {i : Nat} (counter : Nat) {live : List (Server × Nat)}
    (hlive : list.filter (fun x => isLive autoEject now x.1) = live)
    (hroom : i + live.length * pointsPerServer ≤ continuum.length) :
    ∃ continuum', putServers D autoEject now list continuum i counter =
        .ok (continuum', some (counter + live.length * pointsPerServer)) ∧
      continuum'.length = continuum.length ∧
      continuum'.take (i + live.length * pointsPerServer) =
        continuum.take i ++ (points D (live.map (fun x => (x.1.host, x.2)))).map some := by
  induction list generalizing continuum i counter live with
  | nil =>
    subst hlive
    exact ⟨continuum, by simp [putServers], rfl, by simp [points]⟩
  | cons x list ih =>
    obtain ⟨server, hostIndex⟩ := x
    have hrest : ∀ y ∈ list, Fits y.1.host := fun y hy => hfits y (by simp [hy])
    by_cases hserver : isLive autoEject now server = true
    · obtain ⟨live, rfl⟩ : ∃ live', live = (server, hostIndex) :: live' :=
        ⟨_, by rw [← hlive, List.filter_cons, if_pos hserver]⟩
      rw [List.filter_cons, if_pos hserver, List.cons.injEq] at hlive
      rw [List.length_cons, Nat.add_mul, Nat.one_mul] at hroom
      have hp : (List.range pointsPerServer).length = pointsPerServer := List.length_range
      obtain ⟨continuum₁, he₁, hlength₁, htake₁⟩ := @putPoints_eq D server.host (hfits (server, hostIndex) (by simp)) hostIndex
        (List.range pointsPerServer) (fun p hp => List.mem_range.mp hp) continuum i (by omega)
      rw [hp] at he₁ htake₁
      obtain ⟨continuum₂, he₂, hlength₂, htake₂⟩ := @ih hrest continuum₁ (i + pointsPerServer)
        (counter + pointsPerServer) live hlive.2 (by omega)
      refine ⟨continuum₂, ?_, hlength₂.trans hlength₁, ?_⟩
      · rw [putServers, if_pos hserver, he₁, ok_bind]
        simp only [he₂, List.length_cons, Nat.add_mul, Nat.one_mul]
        congr 3
        omega
      · rw [List.length_cons, Nat.add_mul, Nat.one_mul,
          show ∀ n, i + (n + pointsPerServer) = i + pointsPerServer + n by omega, htake₂, htake₁]
        simp [points]
    · rw [List.filter_cons, if_neg hserver] at hlive
      obtain ⟨continuum', he, hlength, htake⟩ := ih hrest counter hlive hroom
      exact ⟨continuum', by rw [putServers, if_neg hserver, he], hlength, htake⟩

theorem mapM_some {α : Type} (xs : List α) : (xs.map some).mapM id = some xs := by
  induction xs with
  | nil => rfl
  | cons x xs ih => rw [List.map_cons, List.mapM_cons, ih]; rfl

theorem Qsort.run_eq {q : Qsort} {continuum : Cells ContinuumItem} {items : List ContinuumItem}
    (hlength : items.length ≤ continuum.length) (h : continuum.take items.length = items.map some) :
    q.run continuum items.length = .ok ((q.sort items).map some ++ continuum.drop items.length) := by
  rw [Qsort.run, if_pos hlength, h, mapM_some]

theorem length_realloc (continuum : Cells ContinuumItem) (n : Nat) : (realloc continuum n).length = n := by
  simp only [realloc, List.length_take, List.length_append, Cells.length_new]
  omega

theorem grow_spec (h : Allocated k) (liveServers : Nat) :
    Allocated (k.grow liveServers) ∧ liveServers ≤ (k.grow liveServers).continuumCount ∧
      (k.grow liveServers).nextDistributionRebuild = k.nextDistributionRebuild := by
  by_cases hlt : k.continuumCount < liveServers
  · rw [Ketama.grow, if_pos hlt]
    exact ⟨length_realloc _ _, Nat.le_add_right _ _, rfl⟩
  · rw [Ketama.grow, if_neg hlt]
    exact ⟨h, Nat.le_of_not_lt hlt, rfl⟩

theorem length_points (D : Distribution) (ring : List (Host × Nat)) :
    (points D ring).length = ring.length * pointsPerServer := by
  induction ring with
  | nil => simp [points]
  | cons x ring ih =>
    have hcons : points D (x :: ring) = (List.range pointsPerServer).map (fun p => ⟨x.2, point D x.1 p⟩) ++ points D ring := by
      simp [points]
    rw [hcons, List.length_append, List.length_map, List.length_range, ih, List.length_cons, Nat.add_mul, Nat.one_mul,
      Nat.add_comm]

theorem length_liveHosts (autoEject : Bool) (now : Nat) (servers : List Server) :
    (liveHosts autoEject now servers).length = servers.countP (isLive autoEject now) := by
  have hmap : servers.zipIdx.map Prod.fst = servers := List.zipIdx_map_fst 0 servers
  rw [liveHosts, List.length_map, ← List.countP_eq_length_filter]
  conv_rhs => rw [← hmap, List.countP_map]
  rfl

/-- With a working clock an update succeeds, whatever was on the continuum before. -/
theorem updateContinuum_some (hfits : ∀ server ∈ m.servers, Fits server.host) (halloc : Allocated m.ketama) (now : Nat) :
    ∃ k, updateContinuum D (some now) m = .ok (.success, { m with ketama := k }) ∧ Allocated k ∧
      (k.nextDistributionRebuild =
        if m.autoEjectHosts then (countLive now m.servers).2 else m.ketama.nextDistributionRebuild) ∧
      if liveHosts m.autoEjectHosts now m.servers = [] then ∀ ring, Built D ring m.ketama → Built D ring k
      else Built D (liveHosts m.autoEjectHosts now m.servers) k := by
  have hcount : (if m.autoEjectHosts then (countLive now m.servers).1 else m.servers.length) =
      (liveHosts m.autoEjectHosts now m.servers).length := by
    rw [length_liveHosts]
    by_cases heject : m.autoEjectHosts = true
    · rw [if_pos heject, heject, (countLive_spec now m.servers).1]
    · rw [if_neg heject, eq_comm, List.countP_eq_length]
      intro server _
      simp [isLive, heject]
  rw [updateContinuum]
  simp only [hcount, List.length_eq_zero_iff]
  by_cases hnone : liveHosts m.autoEjectHosts now m.servers = []
  · rw [if_pos hnone]
    refine ⟨_, rfl, ?_, ?_, ?_⟩
    · split
      · exact halloc
      · exact halloc
    · split
      · rfl
      · rfl
    · rw [if_pos hnone]
      intro ring hbuilt
      split
      · exact ⟨hbuilt.nonempty, hbuilt.sorted⟩
      · exact hbuilt
  · rw [if_neg hnone]
    generalize hk : (if m.autoEjectHosts then { m.ketama with nextDistributionRebuild := (countLive now m.servers).2 }
      else m.ketama) = k
    have hallock : Allocated k := by
      rw [← hk]
      split
      · exact halloc
      · exact halloc
    obtain ⟨halloc', hroom, hrebuild⟩ := grow_spec hallock (liveHosts m.autoEjectHosts now m.servers).length
    generalize k.grow (liveHosts m.autoEjectHosts now m.servers).length = k' at halloc' hroom hrebuild ⊢
    have hlength : (m.servers.zipIdx.filter (fun x => isLive m.autoEjectHosts now x.1)).length =
        (liveHosts m.autoEjectHosts now m.servers).length := by rw [liveHosts, List.length_map]
    obtain ⟨continuum, hput, hsame, htake⟩ := @putServers_eq D now m.autoEjectHosts m.servers.zipIdx
      (fun x hx => hfits x.1 (List.fst_mem_of_mem_zipIdx hx)) k'.continuum 0 0 _ rfl (by
        rw [Nat.zero_add, hlength, halloc']
        exact Nat.mul_le_mul_right _ hroom)
    have hitems : (points D (liveHosts m.autoEjectHosts now m.servers)).length =
        (m.servers.zipIdx.filter (fun x => isLive m.autoEjectHosts now x.1)).length * pointsPerServer := by
      rw [length_points, hlength]
    have hle : (points D (liveHosts m.autoEjectHosts now m.servers)).length ≤ continuum.length := by
      rw [length_points, hsame, halloc']
      exact Nat.mul_le_mul_right _ hroom
    rw [Nat.zero_add, ← hitems, List.take_zero, List.nil_append] at htake
    have hsort := @Qsort.run_eq D.qsort continuum (points D (liveHosts m.autoEjectHosts now m.servers)) hle htake
    rw [hput]
    simp only [ok_bind, Nat.zero_add, ← hitems, hsort]
    refine ⟨_, rfl, ?_, ?_, ?_⟩
    · have hperm := (D.qsort.perm (points D (liveHosts m.autoEjectHosts now m.servers))).length_eq
      change List.length (_ ++ _) = _
      rw [List.length_append, List.length_map, hperm, List.length_drop, Nat.add_sub_cancel' hle, hsame]
      exact halloc'
    · rw [← apply_ite Ketama.nextDistributionRebuild
        (m.autoEjectHosts = true) ({ m.ketama with nextDistributionRebuild := (countLive now m.servers).2 } : Ketama), hk]
      exact hrebuild
    · rw [if_neg hnone]
      refine ⟨hnone, _, D.qsort.perm _, D.qsort.sorted _, (D.qsort.perm _).length_eq, ?_⟩
      apply List.take_left'
      rw [List.length_map, (D.qsort.perm _).length_eq]

end Update

section Dispatch

theorem sub_le_sub_iff (h p q : BitVec 32) : p - h ≤ q - h ↔ Before h.toNat p.toNat q.toNat := by
  rw [BitVec.le_def, BitVec.toNat_sub, BitVec.toNat_sub, Before]
  have := h.isLt
  have := p.isLt
  have := q.isLt
  omega

theorem mem_points {item : ContinuumItem} :
    item ∈ points D ring ↔ ∃ x ∈ ring, ∃ p < pointsPerServer, ⟨x.2, point D x.1 p⟩ = item := by
  simp [points]

theorem onContinuum_iff (h : Built D ring k) {i : Nat} : OnContinuum k i ↔ ∃ x ∈ ring, x.2 = i := by
  obtain ⟨items, hperm, -, hlength, htake⟩ := h.sorted
  have hcell : ∀ l < k.continuumPointsCounter, k.continuum[l]? = items[l]?.map some := by
    intro l hl
    rw [← List.getElem?_take_of_lt hl, htake, List.getElem?_map]
  constructor
  · rintro ⟨l, hl, value, hvalue⟩
    rw [hcell l hl, Option.map_eq_some_iff] at hvalue
    obtain ⟨item, hitem, heq⟩ := hvalue
    cases heq
    obtain ⟨x, hx, p, -, hp⟩ := mem_points.mp (hperm.mem_iff.mp (List.mem_of_getElem? hitem))
    exact ⟨x, hx, congrArg ContinuumItem.index hp⟩
  · rintro ⟨x, hx, rfl⟩
    obtain ⟨l, hl⟩ := List.getElem?_of_mem (hperm.mem_iff.mpr (mem_points.mpr ⟨x, hx, 0, by decide, rfl⟩))
    have hlt := (List.getElem?_eq_some_iff.mp hl).1
    exact ⟨l, hlength ▸ hlt, _, by rw [hcell l (hlength ▸ hlt), hl]; rfl⟩

/-- A lookup finds the server of the nearest point, going round. -/
theorem dispatchHost_routes (h : Built D ring k) (hash : BitVec 32) :
    ∃ i, dispatchHost k hash = .ok i ∧ Routes D ring hash i := by
  obtain ⟨items, hperm, hsorted, hlength, htake⟩ := h.sorted
  have hread : ∀ l item, items[l]? = some item → k.continuum.read l = .ok item := by
    intro l item hl
    have hlt := (List.getElem?_eq_some_iff.mp hl).1
    apply Cells.read_eq
    rw [← List.getElem?_take_of_lt (show l < k.continuumPointsCounter by omega), htake, List.getElem?_map, hl]
    rfl
  have hne : items ≠ [] := by
    rintro rfl
    have hlen := hperm.length_eq
    rw [length_points, List.length_nil] at hlen
    have hpos := List.length_pos_iff.mpr h.nonempty
    simp only [pointsPerServer] at hlen
    omega
  obtain ⟨r, item, hr, hitem, hnearest⟩ := @bisect_nearest Nat ContinuumItem Fault _ (fun item => item.value.toNat)
    hash.toNat items hsorted hne (fun middle => do return decide ((← k.continuum.read middle).value < hash)) (by
      intro l item hl
      rw [hread l item hl]
      rfl)
  have hmem : ∀ x ∈ ring, ∀ q < pointsPerServer, (⟨x.2, point D x.1 q⟩ : ContinuumItem) ∈ items := by
    intro x hx q hq
    exact hperm.mem_iff.mpr (mem_points.mpr ⟨x, hx, q, hq, rfl⟩)
  obtain ⟨x, hx, p, hp, rfl⟩ := mem_points.mp (hperm.mem_iff.mp hnearest.mem)
  refine ⟨x.2, ?_, x.1, p, hx, hp, fun y hy q hq => ?_⟩
  · rw [dispatchHost, ← hlength, hr, ok_bind, hread _ _ hitem]
    rfl
  · exact (sub_le_sub_iff hash _ _).mpr (hnearest.before _ (hmem y hy q hq))

/-- Servers share no point. -/
def Apart (D : Distribution) (ring : List (Host × Nat)) : Prop :=
  ∀ x ∈ ring, ∀ y ∈ ring, ∀ p < pointsPerServer, ∀ q < pointsPerServer, point D x.1 p = point D y.1 q → x.2 = y.2

/-- A key moves only from a server that has left or to one that has come. -/
theorem Routes.eq {ring₁ ring₂ all : List (Host × Nat)} {hash : BitVec 32} {i j : Nat} (hapart : Apart D all)
    (hsub₁ : ring₁ ⊆ all) (hsub₂ : ring₂ ⊆ all) (hi : Routes D ring₁ hash i) (hj : Routes D ring₂ hash j)
    (hmi : ∀ x ∈ ring₁, x.2 = i → x ∈ ring₂) (hmj : ∀ x ∈ ring₂, x.2 = j → x ∈ ring₁) : i = j := by
  obtain ⟨host, p, hx, hp, hle⟩ := hi
  obtain ⟨host', q, hy, hq, hle'⟩ := hj
  have h := hle _ (hmj _ hy rfl) q hq
  have h' := hle' _ (hmi _ hx rfl) p hp
  have heq := ((sub_le_sub_iff hash _ _).mp h).antisymm ((sub_le_sub_iff hash _ _).mp h')
  exact hapart _ (hsub₁ hx) _ (hsub₂ hy) p hp q hq (BitVec.eq_of_toNat_eq heq)

end Dispatch

end OptLrc.Routing
