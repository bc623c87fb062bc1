import OptLrc.Ejection

namespace OptLrc.Failover

open OptLrc.Galois OptLrc.Memory OptLrc.Encoder OptLrc.Memcached OptLrc.Continuum OptLrc.Routing OptLrc.Ejection

variable {D : Distribution} {m m' : Root} {ring : List (Host × Nat)} {s : Nat}

/-- The events that may change a server. -/
def Touches (s : Nat) : Event → Prop
  | .connect t _ _ _ => t = s
  | .quit t _ => t = s
  | .nextRetry t _ => t = s
  | _ => False

/-- The times at which an event may rebuild the continuum. -/
def Reads (now : Nat) : Event → Prop
  | .connect _ _ later _ => later = some now
  | .lookup _ _ later => later = some now
  | .serverAdd _ clock => clock = some now
  | .distribution clock => clock = some now
  | _ => False

def IsBehavior : Event → Prop
  | .behavior _ _ => True
  | _ => False

/-- A server is added while the clock does not work. -/
def AddsBlind : Event → Prop
  | .serverAdd _ none => True
  | _ => False

/-- What the client knows of its servers can be put on a continuum. -/
structure Sound (m : Root) : Prop where
  fits : ∀ server ∈ m.servers, Fits server.host
  allocated : Allocated m.ketama

/-- The settings that an ejection depends on. -/
structure SameSettings (m m' : Root) : Prop where
  autoEject : m'.autoEjectHosts = m.autoEjectHosts
  failureLimit : m'.serverFailureLimit = m.serverFailureLimit
  deadTimeout : m'.deadTimeout = m.deadTimeout

/-- What an event leaves as it was. -/
structure Frame (e : Event) (m m' : Root) : Prop where
  server : ∀ s server, m.servers[s]? = some server → ¬ Touches s e → m'.servers[s]? = some server
  host : ∀ (s : Nat) (server : Server), m.servers[s]? = some server →
    ∃ server', m'.servers[s]? = some server' ∧ server'.host = server.host
  settings : ¬ IsBehavior e → SameSettings m m'

/-- The continuum is as it was, or built from the servers that are there now. -/
def Rebuilt (D : Distribution) (e : Event) (m m' : Root) : Prop :=
  (m'.ketama = m.ketama ∧ (AddsBlind e ∨ m'.servers.length = m.servers.length)) ∨
    ∃ now mid, Reads now e ∧ Sound mid ∧ mid.ketama = m.ketama ∧
      updateContinuum D (some now) mid = .ok (.success, m')

theorem SameSettings.refl (m : Root) : SameSettings m m := ⟨rfl, rfl, rfl⟩

theorem SameSettings.trans {m₁ m₂ m₃ : Root} (h : SameSettings m₁ m₂) (h' : SameSettings m₂ m₃) : SameSettings m₁ m₃ :=
  ⟨h'.autoEject.trans h.autoEject, h'.failureLimit.trans h.failureLimit, h'.deadTimeout.trans h.deadTimeout⟩

@[simp] theorem length_updateServer (m : Root) (s : Nat) (f : Server → Server) :
    (updateServer m s f).servers.length = m.servers.length := List.length_modify f m.servers s

theorem sameSettings_updateServer (m : Root) (s : Nat) (f : Server → Server) : SameSettings m (updateServer m s f) :=
  ⟨rfl, rfl, rfl⟩

theorem getElem?_updateServer_of_ne {t : Nat} (h : s ≠ t) (f : Server → Server) :
    (updateServer m s f).servers[t]? = m.servers[t]? := List.getElem?_modify_ne f m.servers h

theorem getElem?_updateServer {server : Server} (h : m.servers[s]? = some server) (f : Server → Server) :
    (updateServer m s f).servers[s]? = some (f server) := by
  simp only [updateServer, List.getElem?_modify_eq, h]
  rfl

theorem host_of_entry {server server' : Server} (hserver : m.servers[s]? = some server) (hhost : server'.host = server.host) :
    ∀ old, m.servers[s]? = some old → ((fun _ => server') old).host = old.host := by
  intro old hold
  rw [hserver] at hold
  cases hold
  exact hhost

/-- Changing one server, not its host, is within the frame of an event that touches it. -/
theorem frame_updateServer {e : Event} (he : Touches s e) {f : Server → Server}
    (hf : ∀ server, m.servers[s]? = some server → (f server).host = server.host) : Frame e m (updateServer m s f) := by
  refine ⟨fun t server ht hnot => ?_, fun t server ht => ?_, fun _ => sameSettings_updateServer m s f⟩
  · by_cases hst : s = t
    · exact absurd (hst ▸ he) hnot
    · rw [getElem?_updateServer_of_ne hst, ht]
  · by_cases hst : s = t
    · subst hst
      exact ⟨_, getElem?_updateServer ht f, hf server ht⟩
    · exact ⟨server, by rw [getElem?_updateServer_of_ne hst, ht], rfl⟩

theorem Sound.updateServer (h : Sound m) {f : Server → Server}
    (hf : ∀ server, m.servers[s]? = some server → (f server).host = server.host) : Sound (updateServer m s f) := by
  refine ⟨fun server hserver => ?_, h.allocated⟩
  obtain ⟨t, ht⟩ := List.getElem?_of_mem hserver
  by_cases hst : s = t
  · subst hst
    obtain ⟨old, hold⟩ : ∃ old, m.servers[s]? = some old := by
      have hlt := (List.getElem?_eq_some_iff.mp ht).1
      rw [length_updateServer] at hlt
      exact ⟨_, List.getElem?_eq_getElem hlt⟩
    rw [getElem?_updateServer hold] at ht
    cases ht
    rw [hf old hold]
    exact h.fits old (List.mem_of_getElem? hold)
  · rw [getElem?_updateServer_of_ne hst] at ht
    exact h.fits server (List.mem_of_getElem? ht)

/-- An update changes the continuum and nothing else. -/
theorem updateContinuum_cases (h : Sound m) (clock : Option Nat) :
    ∃ rc k, updateContinuum D clock m = .ok (rc, { m with ketama := k }) ∧ Allocated k ∧
      ((clock = none ∧ rc = .errno ∧ k = m.ketama) ∨ ∃ now, clock = some now ∧ rc = .success) := by
  cases clock with
  | none => exact ⟨.errno, m.ketama, rfl, h.allocated, Or.inl ⟨rfl, rfl, rfl⟩⟩
  | some now =>
    obtain ⟨k, hk, halloc, -, -⟩ := updateContinuum_some (D := D) h.fits h.allocated now
    exact ⟨.success, k, hk, halloc, Or.inr ⟨now, rfl, rfl⟩⟩

theorem Frame.refl (e : Event) (m : Root) : Frame e m m :=
  ⟨fun _ _ h _ => h, fun _ server h => ⟨server, h, rfl⟩, fun _ => .refl m⟩

theorem Frame.trans {e : Event} {m₁ m₂ m₃ : Root} (h : Frame e m₁ m₂) (h' : Frame e m₂ m₃) : Frame e m₁ m₃ := by
  refine ⟨fun s server hs hnot => h'.server s server (h.server s server hs hnot) hnot, fun s server hs => ?_,
    fun hnot => ?_⟩
  · obtain ⟨server₂, hs₂, hhost₂⟩ := h.host s server hs
    obtain ⟨server₃, hs₃, hhost₃⟩ := h'.host s server₂ hs₂
    exact ⟨server₃, hs₃, hhost₃.trans hhost₂⟩
  · exact (h.settings hnot).trans (h'.settings hnot)

/-- What an event does when an update is the last thing that it does. -/
theorem update_spec {e : Event} {mid : Root} (h : Sound mid) (hframe : Frame e m mid) (hketama : mid.ketama = m.ketama)
    {clock : Option Nat} (hread : ∀ now, clock = some now → Reads now e)
    (hlength : AddsBlind e ∨ clock = none → AddsBlind e ∨ mid.servers.length = m.servers.length) :
    ∃ rc m', updateContinuum D clock mid = .ok (rc, m') ∧ Sound m' ∧ Frame e m m' ∧ Rebuilt D e m m' := by
  obtain ⟨rc, k, he, halloc, hcase⟩ := updateContinuum_cases (D := D) h clock
  refine ⟨rc, _, he, ⟨h.fits, halloc⟩, ⟨hframe.server, hframe.host, fun hnot => ⟨(hframe.settings hnot).autoEject,
    (hframe.settings hnot).failureLimit, (hframe.settings hnot).deadTimeout⟩⟩, ?_⟩
  rcases hcase with ⟨hnone, -, rfl⟩ | ⟨now, hnow, rfl⟩
  · exact Or.inl ⟨hketama, hlength (Or.inr hnone)⟩
  · exact Or.inr ⟨now, mid, hread now hnow, h, hketama, hnow ▸ he⟩

theorem host_retryLater (m : Root) (now : Option Nat) (server : Server) :
    (retryLater m now server).host = server.host := by
  cases now with
  | none => rfl
  | some now =>
    simp only [retryLater]
    split
    · rfl
    · rfl

theorem host_markServerForTimeout (m : Root) (clock : Option Nat) (server : Server) :
    (markServerForTimeout m clock server).host = server.host := by
  simp only [markServerForTimeout]
  repeat' split
  all_goals rfl

theorem host_quitServer (ioDeath : Bool) (server : Server) : (quitServer ioDeath server).host = server.host := by
  simp only [quitServer]
  split
  · rfl
  · rfl

theorem checkTimeout_spec (now : Option Nat) (m : Root) (s : Nat) (server : Server) :
    ∃ rc inTimeout server', checkTimeout now m s server = (rc, inTimeout, updateServer m s (fun _ => server')) ∧
      server'.host = server.host := by
  by_cases hstate : server.state = .inTimeout
  · cases now with
    | none => exact ⟨_, _, _, if_pos hstate, rfl⟩
    | some now =>
      by_cases hlt : server.nextRetry < now
      · exact ⟨_, _, _, (if_pos hstate).trans (if_pos hlt), rfl⟩
      · exact ⟨_, _, _, (if_pos hstate).trans (if_neg hlt), rfl⟩
  · exact ⟨.success, false, server, by simp only [checkTimeout, if_neg hstate], rfl⟩

/-- An event that touches one server may change it, but not its host. -/
theorem updateServer_spec (h : Sound m) {e : Event} (he : Touches s e) {f : Server → Server}
    (hf : ∀ server, m.servers[s]? = some server → (f server).host = server.host) :
    Sound (updateServer m s f) ∧ Frame e m (updateServer m s f) ∧ Rebuilt D e m (updateServer m s f) :=
  ⟨h.updateServer hf, frame_updateServer he hf, Or.inl ⟨rfl, Or.inr (length_updateServer m s f)⟩⟩

theorem connectAfter_spec (h : Sound m) {e : Event} (he : Touches s e) {server : Server} (hserver : m.servers[s]? = some server)
    {server' : Server} (hhost : server'.host = server.host) (later : Option Nat) (network : Network) (rc : HostsReturn)
    (inTimeout : Bool) {m' : Root}
    (hm : m' = (connectAfter later network s rc inTimeout (updateServer m s (fun _ => server'))).2) :
    Sound m' ∧ Frame e m m' ∧ Rebuilt D e m m' := by
  obtain ⟨hsound, hframe, hrebuilt⟩ := updateServer_spec (D := D) h he (host_of_entry hserver hhost)
  have hthen : ∀ f : Server → Server, (∀ server, (f server).host = server.host) →
      Sound (updateServer (updateServer m s (fun _ => server')) s f) ∧
        Frame e m (updateServer (updateServer m s (fun _ => server')) s f) ∧
        Rebuilt D e m (updateServer (updateServer m s (fun _ => server')) s f) := by
    intro f hf
    obtain ⟨hsound', hframe', -⟩ := updateServer_spec (D := D) hsound he (fun server _ => hf server)
    exact ⟨hsound', hframe.trans hframe', Or.inl ⟨rfl, Or.inr (by rw [length_updateServer, length_updateServer])⟩⟩
  subst hm
  by_cases hrc : rc = .success
  · by_cases hnetwork : network = .connected
    · rw [connectAfter, if_neg (not_not_intro hrc), if_pos hnetwork]
      exact hthen _ (fun _ => rfl)
    · rw [connectAfter, if_neg (not_not_intro hrc), if_neg hnetwork]
      exact hthen _ (fun server => host_markServerForTimeout _ _ _)
  · rw [connectAfter, if_pos hrc]
    exact ⟨hsound, hframe, hrebuilt⟩

/-- A server over its limit is not tried while such servers are ejected. -/
theorem memcachedConnect_over_limit {server : Server} (hclosed : ¬ server.isOpen = true)
    (hlimit : m.serverFailureLimit ≤ server.serverFailureCounter) (heject : m.autoEjectHosts = true) (now later : Option Nat)
    (network : Network) {rc : HostsReturn}
    (he : updateContinuum D later (updateServer m s (fun _ => retryLater m now server)) = .ok (rc, m')) :
    memcachedConnect D now later network m s server = .ok (if rc = .success then .serverMarkedDead else rc, m') := by
  have hfail : (if rc = HostsReturn.success then HostsReturn.serverMarkedDead else rc) ≠ .success := by
    split
    · exact HostsReturn.noConfusion
    · assumption
  rw [memcachedConnect, if_neg hclosed, backoffHandling, if_pos hlimit, if_pos heject, he]
  simp only [ok_bind, pure_eq_ok, connectAfter, if_pos hfail]

/-- A request for a connection rebuilds the continuum or changes one server. -/
theorem memcachedConnect_spec (h : Sound m) (now later : Option Nat) (network : Network) {server : Server}
    (hserver : m.servers[s]? = some server) :
    ∃ rc m', memcachedConnect D now later network m s server = .ok (rc, m') ∧ Sound m' ∧
      Frame (.connect s now later network) m m' ∧ Rebuilt D (.connect s now later network) m m' := by
  have htouch : Touches s (.connect s now later network) := rfl
  by_cases hopen : server.isOpen = true
  · exact ⟨.success, m, by rw [memcachedConnect, if_pos hopen], h, .refl _ m, Or.inl ⟨rfl, Or.inr rfl⟩⟩
  · have hcheck : ∀ server', server'.host = server.host →
        backoffHandling D now later m s server = .ok (checkTimeout now m s server') →
        ∃ rc m', memcachedConnect D now later network m s server = .ok (rc, m') ∧ Sound m' ∧
          Frame (.connect s now later network) m m' ∧ Rebuilt D (.connect s now later network) m m' := by
      intro server' hhost hbackoff
      obtain ⟨rc, inTimeout, server'', he, hhost'⟩ := checkTimeout_spec now m s server'
      rw [memcachedConnect, if_neg hopen, hbackoff, he]
      exact ⟨_, _, rfl, connectAfter_spec h htouch hserver (hhost'.trans hhost) later network rc inTimeout rfl⟩
    by_cases hlimit : m.serverFailureLimit ≤ server.serverFailureCounter
    · by_cases heject : m.autoEjectHosts = true
      · obtain ⟨hmid, hframe, -⟩ := updateServer_spec (D := D) h htouch
          (host_of_entry hserver (host_retryLater m now server))
        obtain ⟨rc, m', he, hspec⟩ := update_spec (D := D) (m := m) hmid hframe rfl (fun _ h => h)
          (fun _ => Or.inr (length_updateServer _ _ _))
        exact ⟨_, m', memcachedConnect_over_limit hopen hlimit heject now later network he, hspec⟩
      · exact hcheck { server with state := .inTimeout, nextRetry := if server.nextRetry = 0 then 1 else server.nextRetry } rfl
          (by rw [backoffHandling, if_pos hlimit, if_neg heject]; rfl)
    · exact hcheck server rfl (by rw [backoffHandling, if_neg hlimit]; rfl)

theorem regenForAutoEject_spec (h : Sound m) (now later : Option Nat) (key : Key) :
    ∃ m', regenForAutoEject D now later m = .ok m' ∧ Sound m' ∧ Frame (.lookup key now later) m m' ∧
      Rebuilt D (.lookup key now later) m m' := by
  have hkeep : ∃ m', (Except.ok m : Except Fault Root) = .ok m' ∧ Sound m' ∧ Frame (.lookup key now later) m m' ∧
      Rebuilt D (.lookup key now later) m m' := ⟨m, rfl, h, .refl _ m, Or.inl ⟨rfl, Or.inr rfl⟩⟩
  simp only [regenForAutoEject]
  split
  · cases now with
    | none => exact hkeep
    | some now =>
      simp only
      split
      · obtain ⟨rc, m', he, hspec⟩ := @update_spec D m (.lookup key (some now) later) m h (.refl _ m) rfl later
          (fun _ h => h) (fun _ => Or.inr rfl)
        exact ⟨m', by rw [he]; rfl, hspec⟩
      · exact hkeep
  · exact hkeep

/-- A client that routes its keys to some servers of its list. -/
structure Serving (D : Distribution) (m : Root) (ring : List (Host × Nat)) : Prop where
  sound : Sound m
  built : Built D ring m.ketama
  host : ∀ x ∈ ring, ∃ server : Server, m.servers[x.2]? = some server ∧ server.host = x.1

theorem mem_liveHosts {autoEject : Bool} {now : Nat} {servers : List Server} {x : Host × Nat} :
    x ∈ liveHosts autoEject now servers ↔
      ∃ server, servers[x.2]? = some server ∧ isLive autoEject now server = true ∧ server.host = x.1 := by
  obtain ⟨host, i⟩ := x
  simp only [liveHosts, List.mem_map, List.mem_filter, Prod.exists, List.mem_zipIdx_iff_getElem?, Prod.mk.injEq]
  constructor
  · rintro ⟨server, j, ⟨hserver, hlive⟩, hhost, rfl⟩
    exact ⟨server, hserver, hlive, hhost⟩
  · rintro ⟨server, hserver, hlive, hhost⟩
    exact ⟨server, i, ⟨hserver, hlive⟩, hhost, rfl⟩

theorem Serving.keep (h : Serving D m ring) {e : Event} (hsound : Sound m') (hframe : Frame e m m')
    (hbuilt : Built D ring m'.ketama) : Serving D m' ring := by
  refine ⟨hsound, hbuilt, fun x hx => ?_⟩
  obtain ⟨server, hserver, hhost⟩ := h.host x hx
  obtain ⟨server', hserver', hhost'⟩ := hframe.host x.2 server hserver
  exact ⟨server', hserver', hhost'.trans hhost⟩

theorem serving_liveHosts {now : Nat} (hsound : Sound m)
    (hbuilt : Built D (liveHosts m.autoEjectHosts now m.servers) m.ketama) :
    Serving D m (liveHosts m.autoEjectHosts now m.servers) := by
  refine ⟨hsound, hbuilt, fun x hx => ?_⟩
  obtain ⟨server, hserver, -, hhost⟩ := mem_liveHosts.mp hx
  exact ⟨server, hserver, hhost⟩

/-- After an event the keys go where they went, or to the servers that are live. -/
theorem Serving.next (h : Serving D m ring) {e : Event} (hsound : Sound m') (hframe : Frame e m m')
    (hrebuilt : Rebuilt D e m m') :
    Serving D m' ring ∨ ∃ now, Reads now e ∧ Serving D m' (liveHosts m'.autoEjectHosts now m'.servers) := by
  rcases hrebuilt with ⟨hketama, -⟩ | ⟨now, mid, hread, hmid, hketama, hupdate⟩
  · exact Or.inl (h.keep hsound hframe (hketama ▸ h.built))
  · obtain ⟨k, hk, -, -, hbuilt⟩ := updateContinuum_some (D := D) hmid.fits hmid.allocated now
    rw [hk] at hupdate
    cases hupdate
    by_cases hnone : liveHosts mid.autoEjectHosts now mid.servers = []
    · rw [if_pos hnone] at hbuilt
      exact Or.inl (h.keep hsound hframe (hbuilt ring (hketama ▸ h.built)))
    · rw [if_neg hnone] at hbuilt
      exact Or.inr ⟨now, hread, serving_liveHosts hsound hbuilt⟩

theorem memcachedServerAdd_spec (h : Sound m) (host : Host) (clock : Option Nat) :
    ∃ rc m', memcachedServerAdd D host clock m = .ok (rc, m') ∧ Sound m' ∧ Frame (.serverAdd host clock) m m' ∧
      Rebuilt D (.serverAdd host clock) m m' := by
  have hport : (if host.port % 2 ^ 16 = 0 then defaultPort else host.port % 2 ^ 16) < 2 ^ 16 := by
    split
    · decide
    · omega
  simp only [memcachedServerAdd]
  generalize (if host.port % 2 ^ 16 = 0 then defaultPort else host.port % 2 ^ 16) = port at hport ⊢
  generalize (if host.hostname = [] then localhost else host.hostname) = hostname
  by_cases hlt : hostname.length < maxHost
  · rw [if_pos hlt]
    have hget : ∀ (s : Nat) (server : Server), m.servers[s]? = some server →
        (m.servers ++ [serverInit ⟨hostname, port⟩])[s]? = some server := by
      intro s server hserver
      rw [List.getElem?_append_left (List.getElem?_eq_some_iff.mp hserver).1, hserver]
    apply update_spec
    · refine ⟨fun server hserver => ?_, h.allocated⟩
      rcases List.mem_append.mp hserver with hmem | hnew
      · exact h.fits server hmem
      · rw [List.mem_singleton.mp hnew]
        exact ⟨hlt, hport⟩
    · exact ⟨fun s server hserver _ => hget s server hserver, fun s server hserver => ⟨server, hget s server hserver, rfl⟩,
        fun _ => ⟨rfl, rfl, rfl⟩⟩
    · rfl
    · exact fun _ h => h
    · rintro (hblind | rfl)
      · exact Or.inl hblind
      · exact Or.inl trivial
  · rw [if_neg hlt]
    exact ⟨_, _, rfl, h, .refl _ m, Or.inl ⟨rfl, Or.inr rfl⟩⟩

theorem memcachedBehaviorSet_spec (h : Sound m) (flag : Behavior) (data : Nat) :
    Sound (memcachedBehaviorSet m flag data).2 ∧
      Frame (.behavior flag data) m (memcachedBehaviorSet m flag data).2 ∧
      Rebuilt D (.behavior flag data) m (memcachedBehaviorSet m flag data).2 := by
  have hsame : ∀ m' : Root, m'.servers = m.servers → m'.ketama = m.ketama →
      Sound m' ∧ Frame (.behavior flag data) m m' ∧ Rebuilt D (.behavior flag data) m m' := by
    intro m' hservers hketama
    refine ⟨⟨hservers ▸ h.fits, hketama ▸ h.allocated⟩, ⟨fun s server hs _ => hservers ▸ hs,
      fun s server hs => ⟨server, hservers ▸ hs, rfl⟩, fun hnot => absurd trivial hnot⟩, Or.inl ⟨hketama, Or.inr ?_⟩⟩
    rw [hservers]
  apply hsame
  · cases flag <;> simp only [memcachedBehaviorSet] <;> split <;> rfl
  · cases flag <;> simp only [memcachedBehaviorSet] <;> split <;> rfl

/-- A lookup rebuilds the continuum when it is time for that, and then finds a server. -/
theorem lookup_spec (h : Serving D m ring) (key : Key) (now later : Option Nat) :
    ∃ i m', generateHashWithRedistribution D now later m key = .ok (i, m') ∧
      regenForAutoEject D now later m = .ok m' ∧ Sound m' ∧ Frame (.lookup key now later) m m' ∧
      Rebuilt D (.lookup key now later) m m' ∧
      ∀ ring', Built D ring' m'.ketama → Routes D ring' (generateHashWrapper D m key) i := by
  obtain ⟨m', hregen, hsound, hframe, hrebuilt⟩ := regenForAutoEject_spec (D := D) h.sound now later key
  obtain ⟨ring', hbuilt⟩ : ∃ ring', Built D ring' m'.ketama := by
    rcases h.next hsound hframe hrebuilt with h' | ⟨now, -, h'⟩
    · exact ⟨_, h'.built⟩
    · exact ⟨_, h'.built⟩
  obtain ⟨i, hi, -⟩ := dispatchHost_routes hbuilt (generateHashWrapper D m key)
  refine ⟨i, m', ?_, hregen, hsound, hframe, hrebuilt, fun other hother => ?_⟩
  · simp only [generateHashWithRedistribution, hregen, ok_bind, hi, pure_eq_ok]
  · obtain ⟨j, hj, hroutes⟩ := dispatchHost_routes hother (generateHashWrapper D m key)
    rw [hi] at hj
    cases hj
    exact hroutes

/-- What one event does: it never faults, and leaves a client that serves. -/
theorem step_spec (h : Serving D m ring) (e : Event) :
    ∃ m', step D m e = .ok m' ∧ Sound m' ∧ Frame e m m' ∧ Rebuilt D e m m' := by
  cases e with
  | query =>
    exact ⟨_, rfl, ⟨h.sound.fits, h.sound.allocated⟩, ⟨fun _ _ h _ => h, fun _ server h => ⟨server, h, rfl⟩,
      fun _ => ⟨rfl, rfl, rfl⟩⟩, Or.inl ⟨rfl, Or.inr rfl⟩⟩
  | connect s now later network =>
    cases hserver : m.servers[s]? with
    | none => exact ⟨m, by simp only [step, hserver], h.sound, .refl _ m, Or.inl ⟨rfl, Or.inr rfl⟩⟩
    | some server =>
      obtain ⟨rc, m', he, hspec⟩ := memcachedConnect_spec (D := D) h.sound now later network hserver
      exact ⟨m', by simp only [step, hserver, he, ok_bind, pure_eq_ok], hspec⟩
  | quit s ioDeath =>
    have htouch : Touches s (.quit s ioDeath) := rfl
    exact ⟨_, rfl, updateServer_spec h.sound htouch (fun server _ => host_quitServer ioDeath server)⟩
  | nextRetry s absoluteTime =>
    have htouch : Touches s (.nextRetry s absoluteTime) := rfl
    exact ⟨_, rfl, updateServer_spec h.sound htouch (fun _ _ => rfl)⟩
  | lookup key now later =>
    obtain ⟨i, m', hlookup, -, hsound, hframe, hrebuilt, -⟩ := lookup_spec h key now later
    exact ⟨m', by simp only [step, hlookup, ok_bind, pure_eq_ok], hsound, hframe, hrebuilt⟩
  | serverAdd host clock =>
    obtain ⟨rc, m', he, hspec⟩ := memcachedServerAdd_spec (D := D) h.sound host clock
    exact ⟨m', by simp only [step, he, ok_bind, pure_eq_ok], hspec⟩
  | distribution clock =>
    obtain ⟨rc, m', he, hspec⟩ := @update_spec D m (.distribution clock) m h.sound (.refl _ m) rfl clock
      (fun _ h => h) (fun _ => Or.inr rfl)
    exact ⟨m', by simp only [step, he, ok_bind, pure_eq_ok], hspec⟩
  | behavior flag data => exact ⟨_, rfl, memcachedBehaviorSet_spec h.sound flag data⟩

theorem run_append_singleton (D : Distribution) (m : Root) (events : List Event) (e : Event) :
    run D m (events ++ [e]) = run D m events >>= fun m' => step D m' e := by
  rw [run, List.foldlM_append]
  simp only [List.foldlM_cons, List.foldlM_nil, bind_pure]
  rfl

theorem run_lookup {events : List Event} {m₁ m₂ : Root} {key : Key} {now later : Option Nat} {i : Nat}
    (hrun : run D m events = .ok m₁) (hlookup : generateHashWithRedistribution D now later m₁ key = .ok (i, m₂)) :
    run D m (events ++ [.lookup key now later]) = .ok m₂ := by
  rw [run_append_singleton, hrun, ok_bind]
  simp only [step, hlookup, ok_bind, pure_eq_ok]

/-- The servers that the keys go to were live at some point of the run. -/
theorem run_serving (h : Serving D m ring) (events : List Event) :
    ∃ m' ring', run D m events = .ok m' ∧ Serving D m' ring' ∧
      (ring' = ring ∨ ∃ pre mid now, pre <+: events ∧ run D m pre = .ok mid ∧
        ring' = liveHosts mid.autoEjectHosts now mid.servers) := by
  induction events using List.reverseRecOn with
  | nil => exact ⟨m, ring, rfl, h, Or.inl rfl⟩
  | append_singleton events e ih =>
    obtain ⟨m₁, ring₁, hrun₁, h₁, hring₁⟩ := ih
    obtain ⟨m₂, hstep, hsound, hframe, hrebuilt⟩ := step_spec h₁ e
    have hrun₂ : run D m (events ++ [e]) = .ok m₂ := by rw [run_append_singleton, hrun₁, ok_bind, hstep]
    rcases h₁.next hsound hframe hrebuilt with h₂ | ⟨now, -, h₂⟩
    · refine ⟨m₂, ring₁, hrun₂, h₂, hring₁.imp id ?_⟩
      rintro ⟨pre, mid, now, hpre, hmid⟩
      exact ⟨pre, mid, now, hpre.trans (List.prefix_append _ _), hmid⟩
    · exact ⟨m₂, _, hrun₂, h₂, Or.inr ⟨events ++ [e], m₂, now, List.prefix_rfl, hrun₂, rfl⟩⟩

/-- A property that every event keeps holds after a run. -/
theorem run_invariant (h : Serving D m ring) {P : Root → Prop} {events : List Event}
    (hstep : ∀ e ∈ events, ∀ m₁ m₂, Sound m₁ → step D m₁ e = .ok m₂ → Frame e m₁ m₂ → P m₁ → P m₂) (hP : P m)
    (hrun : run D m events = .ok m') : P m' := by
  induction events using List.reverseRecOn generalizing m' with
  | nil =>
    cases hrun
    exact hP
  | append_singleton events e ih =>
    obtain ⟨m₁, ring₁, hrun₁, h₁, -⟩ := run_serving h events
    obtain ⟨m₂, hone, -, hframe, -⟩ := step_spec h₁ e
    rw [run_append_singleton, hrun₁, ok_bind, hone] at hrun
    cases hrun
    exact hstep e (by simp) m₁ _ h₁.sound hone hframe (ih (fun e' he' => hstep e' (by simp [he'])) hrun₁)

/-- A server that no event touches is as it was. -/
theorem run_server {events : List Event} (h : Serving D m ring) (hevents : ∀ e ∈ events, ¬ Touches s e) {server : Server}
    (hserver : m.servers[s]? = some server) (hrun : run D m events = .ok m') : m'.servers[s]? = some server :=
  run_invariant (P := fun m => m.servers[s]? = some server) h
    (fun e he _ _ _ _ hframe hserver => hframe.server s server hserver (hevents e he)) hserver hrun

theorem sound_created {hosts : List Host} (hfits : ∀ host ∈ hosts, Fits host) :
    Sound { memcachedCreate with servers := hosts.map serverInit } := by
  refine ⟨fun server hserver => ?_, rfl⟩
  obtain ⟨host, hhost, rfl⟩ := List.mem_map.mp hserver
  exact hfits host hhost

theorem serving_of_configured (h : Configured D m) :
    ∃ now, Serving D m (liveHosts m.autoEjectHosts now m.servers) ∧ m.autoEjectHosts = false := by
  obtain ⟨hosts, now, hne, hfits, hupdate⟩ := h
  have hsound := sound_created hfits
  obtain ⟨k, hk, halloc, -, hbuilt⟩ := updateContinuum_some (D := D) hsound.fits hsound.allocated now
  rw [hk] at hupdate
  cases hupdate
  have hlive : liveHosts false now (hosts.map serverInit) ≠ [] := by
    obtain ⟨host, hosts, rfl⟩ := List.exists_cons_of_ne_nil hne
    apply List.ne_nil_of_mem
    exact mem_liveHosts (x := (host, 0)).mpr ⟨serverInit host, rfl, rfl, rfl⟩
  exact ⟨now, serving_liveHosts ⟨hsound.fits, halloc⟩ ((if_neg hlive).mp hbuilt), rfl⟩

/-- In every run a lookup finds the server of the nearest point, among the points of the servers that
were live at some time of the run. -/
theorem lookup_routes (h : Configured D m) (events : List Event) (key : Key) (now later : Option Nat) :
    ∃ m₁ i m₂, run D m events = .ok m₁ ∧ generateHashWithRedistribution D now later m₁ key = .ok (i, m₂) ∧
      ∃ pre mid t, pre <+: events ++ [.lookup key now later] ∧ run D m pre = .ok mid ∧
        Built D (liveHosts mid.autoEjectHosts t mid.servers) m₂.ketama ∧
        Routes D (liveHosts mid.autoEjectHosts t mid.servers) (generateHashWrapper D m₁ key) i := by
  obtain ⟨t₀, hserving, -⟩ := serving_of_configured h
  obtain ⟨m₁, ring₁, hrun₁, h₁, hring₁⟩ := run_serving hserving events
  obtain ⟨i, m₂, hlookup, -, hsound, hframe, hrebuilt, hroutes⟩ := lookup_spec h₁ key now later
  refine ⟨m₁, i, m₂, hrun₁, hlookup, ?_⟩
  rcases h₁.next hsound hframe hrebuilt with h₂ | ⟨t, -, h₂⟩
  · rcases hring₁ with rfl | ⟨pre, mid, t, hpre, hmid, rfl⟩
    · exact ⟨[], m, t₀, List.nil_prefix, rfl, h₂.built, hroutes _ h₂.built⟩
    · exact ⟨pre, mid, t, hpre.trans (List.prefix_append _ _), hmid, h₂.built, hroutes _ h₂.built⟩
  · exact ⟨_, m₂, t, List.prefix_rfl, run_lookup hrun₁ hlookup, h₂.built, hroutes _ h₂.built⟩

/-- The merge sort of the C library. -/
def sampleQsort : Qsort where
  sort items := items.mergeSort (fun a b => decide (a.value.toNat ≤ b.value.toNat))
  perm items := List.mergeSort_perm items _
  sorted items := by
    have h := @List.pairwise_mergeSort ContinuumItem (fun a b => decide (a.value.toNat ≤ b.value.toNat))
      (fun a b c hab hbc => by simp only [decide_eq_true_eq] at *; omega)
      (fun a b => by simp only [Bool.or_eq_true, decide_eq_true_eq]; omega) items
    exact h.imp (fun hle => of_decide_eq_true hle)

def sampleDistribution : Distribution := ⟨fun key => if key.head? = some 1 then 1 else 0, sampleQsort, false⟩

def sampleHosts : List Host := [⟨[0], 1⟩, ⟨[1], 1⟩]

def sampleRoot (k : Ketama) : Root := { memcachedCreate with servers := sampleHosts.map serverInit, ketama := k }

theorem exists_sampleRoot :
    ∃ k, Configured sampleDistribution (sampleRoot k) ∧ k.nextDistributionRebuild = 0 := by
  have hfits : ∀ host ∈ sampleHosts, Fits host := by
    intro host hhost
    simp only [sampleHosts, List.mem_cons, List.not_mem_nil, or_false] at hhost
    rcases hhost with rfl | rfl <;> exact ⟨by decide, by decide⟩
  obtain ⟨k, hk, -, hrebuild, -⟩ := updateContinuum_some (D := sampleDistribution) (sound_created hfits).fits rfl 0
  exact ⟨k, ⟨sampleHosts, 0, by decide, hfits, hk⟩, hrebuild⟩

theorem lookup_routes_sample : ∃ m m₁ i m₂, run sampleDistribution m [.behavior .autoEjectHosts 1] = .ok m₁ ∧
    generateHashWithRedistribution sampleDistribution (some 1) (some 1) m₁ [] = .ok (i, m₂) := by
  obtain ⟨k, hk, -⟩ := exists_sampleRoot
  obtain ⟨m₁, i, m₂, hrun, hlookup, -⟩ := lookup_routes hk [.behavior .autoEjectHosts 1] [] (some 1) (some 1)
  exact ⟨_, m₁, i, m₂, hrun, hlookup⟩

/-- Every server off the continuum waits for a time that a server had for its next try. -/
def Waiting (D : Distribution) (m : Root) (events : List Event) (m' : Root) (ring : List (Host × Nat)) : Prop :=
  ∀ s < m'.servers.length, (∀ x ∈ ring, x.2 ≠ s) → m'.ketama.nextDistributionRebuild ≠ 0 ∧
    ∃ pre mid server, pre <+: events ∧ run D m pre = .ok mid ∧ mid.servers[s]? = some server ∧
      m'.ketama.nextDistributionRebuild ≤ server.nextRetry

/-- After a rebuild at `now`, a server that it left out has its next try later. -/
theorem lt_nextRetry_of_missing {now : Nat} {server : Server} (hserver : m.servers[s]? = some server)
    (hmissing : ∀ x ∈ liveHosts m.autoEjectHosts now m.servers, x.2 ≠ s) :
    m.autoEjectHosts = true ∧ (now : Int) < server.nextRetry := by
  have hdead : ¬ isLive m.autoEjectHosts now server = true := by
    intro hlive
    exact hmissing (server.host, s) (mem_liveHosts.mpr ⟨server, hserver, hlive, rfl⟩) rfl
  simpa [isLive] using hdead

theorem Waiting.next {events : List Event} {m₁ m₂ : Root} {e : Event} (hw : Waiting D m events m₁ ring)
    (h : Serving D m₁ ring) (hrun : run D m (events ++ [e]) = .ok m₂) (hsound : Sound m₂) (hframe : Frame e m₁ m₂)
    (hrebuilt : Rebuilt D e m₁ m₂) (hblind : ¬ AddsBlind e) :
    ∃ ring', Serving D m₂ ring' ∧ Waiting D m (events ++ [e]) m₂ ring' := by
  rcases hrebuilt with ⟨hketama, hlength⟩ | ⟨now, mid, hread, hmid, hketama, hupdate⟩
  · refine ⟨ring, h.keep hsound hframe (hketama ▸ h.built), fun s hs hmissing => ?_⟩
    rw [hlength.resolve_left hblind] at hs
    obtain ⟨hne, pre, mid, server, hpre, hmid, hserver, hle⟩ := hw s hs hmissing
    rw [hketama]
    exact ⟨hne, pre, mid, server, hpre.trans (List.prefix_append _ _), hmid, hserver, hle⟩
  · obtain ⟨k, hk, -, hcount, hbuilt⟩ := updateContinuum_some (D := D) hmid.fits hmid.allocated now
    rw [hk] at hupdate
    cases hupdate
    have hwait : ∀ s < mid.servers.length, (∀ x ∈ liveHosts mid.autoEjectHosts now mid.servers, x.2 ≠ s) →
        k.nextDistributionRebuild ≠ 0 ∧ ∃ pre mid' server, pre <+: events ++ [e] ∧ run D m pre = .ok mid' ∧
          mid'.servers[s]? = some server ∧ k.nextDistributionRebuild ≤ server.nextRetry := by
      intro s hs hmissing
      have hserver := List.getElem?_eq_getElem hs
      obtain ⟨heject, hlt⟩ := lt_nextRetry_of_missing hserver hmissing
      obtain ⟨-, -, hall⟩ := countLive_spec now mid.servers
      rw [if_pos heject] at hcount
      obtain ⟨hne, hle⟩ := hall _ (List.getElem_mem hs) hlt
      rw [hcount]
      exact ⟨hne, events ++ [e], _, _, List.prefix_rfl, hrun, hserver, hle⟩
    by_cases hnone : liveHosts mid.autoEjectHosts now mid.servers = []
    · rw [if_pos hnone] at hbuilt
      exact ⟨ring, h.keep hsound hframe (hbuilt ring (hketama ▸ h.built)),
        fun s hs _ => hwait s hs (by simp [hnone])⟩
    · rw [if_neg hnone] at hbuilt
      exact ⟨_, serving_liveHosts hsound hbuilt, hwait⟩

theorem run_waiting (h : Configured D m) (events : List Event) (hblind : ∀ e ∈ events, ¬ AddsBlind e) :
    ∃ m' ring, run D m events = .ok m' ∧ Serving D m' ring ∧ Waiting D m events m' ring := by
  induction events using List.reverseRecOn with
  | nil =>
    obtain ⟨now, hserving, heject⟩ := serving_of_configured h
    refine ⟨m, _, rfl, hserving, fun s hs hmissing => ?_⟩
    have hlive := (lt_nextRetry_of_missing (List.getElem?_eq_getElem hs) hmissing).1
    rw [heject] at hlive
    exact absurd hlive Bool.false_ne_true
  | append_singleton events e ih =>
    obtain ⟨m₁, ring₁, hrun₁, h₁, hw₁⟩ := ih (fun e' he' => hblind e' (by simp [he']))
    obtain ⟨m₂, hstep, hsound, hframe, hrebuilt⟩ := step_spec h₁ e
    have hrun₂ : run D m (events ++ [e]) = .ok m₂ := by rw [run_append_singleton, hrun₁, ok_bind, hstep]
    obtain ⟨ring₂, h₂, hw₂⟩ := hw₁.next h₁ hrun₂ hsound hframe hrebuilt (hblind e (by simp))
    exact ⟨m₂, ring₂, hrun₂, h₂, hw₂⟩

/-- A lookup leaves no time for a rebuild behind. -/
theorem regenForAutoEject_rebuild (h : Sound m) (heject : m.autoEjectHosts = true) {now later : Nat} (hle : now ≤ later)
    (hregen : regenForAutoEject D (some now) (some later) m = .ok m') :
    m'.ketama.nextDistributionRebuild = 0 ∨ (now : Int) ≤ m'.ketama.nextDistributionRebuild := by
  simp only [regenForAutoEject] at hregen
  split at hregen
  · rename_i hcond
    split at hregen
    · obtain ⟨k, hk, -, hcount, -⟩ := updateContinuum_some (D := D) h.fits h.allocated later
      rw [hk] at hregen
      cases hregen
      rw [if_pos heject] at hcount
      obtain ⟨-, hnow, -⟩ := countLive_spec later m.servers
      change k.nextDistributionRebuild = 0 ∨ _
      rw [hcount]
      exact hnow.imp id (fun hlt => by omega)
    · cases hregen
      omega
  · rename_i hcond
    cases hregen
    by_contra hne
    exact hcond ⟨heject, fun hzero => hne (Or.inl hzero)⟩

end OptLrc.Failover
