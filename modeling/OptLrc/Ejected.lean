import OptLrc.Failover

namespace OptLrc.Ejected

open OptLrc.Galois OptLrc.Memory OptLrc.Encoder OptLrc.Memcached OptLrc.Continuum OptLrc.Routing OptLrc.Ejection
open OptLrc.Failover

variable {D : Distribution} {m m' : Root} {ring : List (Host × Nat)} {s : Nat} {server : Server}

/-- The attempt that ejects a server changes no other server. -/
theorem connect_over_limit (hclosed : server.isOpen = false) (hlimit : m.serverFailureLimit ≤ server.serverFailureCounter)
    (heject : m.autoEjectHosts = true) (h : Sound m) (hserver : m.servers[s]? = some server) (now later : Option Nat)
    (network : Network) :
    ∃ rc k, memcachedConnect D now later network m s server =
        .ok (rc, { updateServer m s (fun _ => retryLater m now server) with ketama := k }) ∧
      (rc = .serverMarkedDead ∨ rc = .errno) := by
  have hsound := h.updateServer (host_of_entry hserver (host_retryLater m now server))
  obtain ⟨rc, k, he, -, hcase⟩ := updateContinuum_cases (D := D) hsound later
  refine ⟨_, k, memcachedConnect_over_limit (by simp [hclosed]) hlimit heject now later network he, ?_⟩
  rcases hcase with ⟨-, rfl, -⟩ | ⟨t, -, rfl⟩
  · exact Or.inr rfl
  · exact Or.inl rfl

/-- No key goes to a server before a deadline. -/
structure Avoided (D : Distribution) (m : Root) (s : Nat) (deadline : Int) (ring : List (Host × Nat)) : Prop where
  serving : Serving D m ring
  missing : ∀ x ∈ ring, x.2 ≠ s
  autoEject : m.autoEjectHosts = true
  nextRetry : ∃ server, m.servers[s]? = some server ∧ server.nextRetry = deadline

theorem not_mem_liveHosts {deadline : Int} {now : Nat} (heject : m.autoEjectHosts = true)
    (hserver : ∃ server, m.servers[s]? = some server ∧ server.nextRetry = deadline) (hnow : (now : Int) < deadline) :
    ∀ x ∈ liveHosts m.autoEjectHosts now m.servers, x.2 ≠ s := by
  rintro x hx rfl
  obtain ⟨server, hserver, rfl⟩ := hserver
  obtain ⟨server', hserver', hlive, -⟩ := mem_liveHosts.mp hx
  rw [hserver] at hserver'
  cases hserver'
  rw [heject] at hlive
  have hle : server.nextRetry ≤ now := by simpa [isLive] using hlive
  omega

theorem Avoided.next {deadline : Int} (h : Avoided D m s deadline ring) {e : Event} (htouch : ¬ Touches s e)
    (hbehavior : ¬ IsBehavior e) (hreads : ∀ t, Reads t e → (t : Int) < deadline) (hsound : Sound m') (hframe : Frame e m m')
    (hrebuilt : Rebuilt D e m m') : ∃ ring', Avoided D m' s deadline ring' := by
  have heject : m'.autoEjectHosts = true := (hframe.settings hbehavior).autoEject.trans h.autoEject
  have hserver : ∃ server, m'.servers[s]? = some server ∧ server.nextRetry = deadline := by
    obtain ⟨server, hserver, hretry⟩ := h.nextRetry
    exact ⟨server, hframe.server s server hserver htouch, hretry⟩
  rcases h.serving.next hsound hframe hrebuilt with h' | ⟨t, hread, h'⟩
  · exact ⟨ring, h', h.missing, heject, hserver⟩
  · exact ⟨_, h', not_mem_liveHosts heject hserver (hreads t hread), heject, hserver⟩

theorem run_avoided {deadline : Int} (h : Avoided D m s deadline ring) {events : List Event}
    (hevents : ∀ e ∈ events, ¬ Touches s e ∧ ¬ IsBehavior e ∧ ∀ t, Reads t e → (t : Int) < deadline) :
    ∃ m' ring', run D m events = .ok m' ∧ Avoided D m' s deadline ring' := by
  induction events using List.reverseRecOn with
  | nil => exact ⟨m, ring, rfl, h⟩
  | append_singleton events e ih =>
    obtain ⟨m₁, ring₁, hrun₁, h₁⟩ := ih (fun e' he' => hevents e' (by simp [he']))
    obtain ⟨m₂, hstep, hsound, hframe, hrebuilt⟩ := step_spec h₁.serving e
    obtain ⟨htouch, hbehavior, hreads⟩ := hevents e (by simp)
    obtain ⟨ring₂, h₂⟩ := h₁.next htouch hbehavior hreads hsound hframe hrebuilt
    exact ⟨m₂, ring₂, by rw [run_append_singleton, hrun₁, ok_bind, hstep], h₂⟩

theorem serving_of_run (h : Configured D m) {events : List Event} (hrun : run D m events = .ok m') :
    ∃ ring, Serving D m' ring := by
  obtain ⟨now, hserving, -⟩ := serving_of_configured h
  obtain ⟨m₁, ring₁, hrun₁, h₁, -⟩ := run_serving hserving events
  rw [hrun] at hrun₁
  cases hrun₁
  exact ⟨ring₁, h₁⟩

theorem run_settings {events : List Event} (h : Serving D m ring) (hevents : ∀ e ∈ events, ¬ IsBehavior e)
    (hrun : run D m events = .ok m') : SameSettings m m' :=
  run_invariant (P := SameSettings m) h
    (fun e he _ _ _ _ hframe hsame => hsame.trans (hframe.settings (hevents e he))) (.refl m) hrun

theorem memcachedBehaviorSet_failureLimit (h : m.serverFailureLimit < 2 ^ 32) (flag : Behavior) (data : Nat) :
    (memcachedBehaviorSet m flag data).2.serverFailureLimit < 2 ^ 32 := by
  cases flag with
  | removeFailedServers =>
    simp only [memcachedBehaviorSet]
    split
    · exact h
    · exact Nat.mod_lt _ (by decide)
  | serverFailureLimit =>
    simp only [memcachedBehaviorSet]
    split
    · exact h
    · exact Nat.mod_lt _ (by decide)
  | autoEjectHosts => exact h
  | serverTimeoutLimit => exact h
  | retryTimeout => exact h
  | deadTimeout => exact h

theorem run_failureLimit (h : Configured D m) {events : List Event} (hrun : run D m events = .ok m') :
    m'.serverFailureLimit < 2 ^ 32 := by
  obtain ⟨now, hserving, -⟩ := serving_of_configured h
  apply run_invariant (P := fun m => m.serverFailureLimit < 2 ^ 32) hserving ?_ ?_ hrun
  · intro e _ m₁ m₂ _ hstep hframe hlt
    by_cases hbehavior : IsBehavior e
    · cases e with
      | behavior flag data =>
        cases hstep
        exact memcachedBehaviorSet_failureLimit hlt flag data
      | query => exact absurd hbehavior id
      | connect t now later network => exact absurd hbehavior id
      | quit t ioDeath => exact absurd hbehavior id
      | nextRetry t absoluteTime => exact absurd hbehavior id
      | lookup key now later => exact absurd hbehavior id
      | serverAdd host clock => exact absurd hbehavior id
      | distribution clock => exact absurd hbehavior id
    · rwa [(hframe.settings hbehavior).failureLimit]
  · obtain ⟨hosts, t, -, hfits, hupdate⟩ := h
    obtain ⟨rc, k, he, -⟩ := updateContinuum_cases (D := D) (sound_created hfits) (some t)
    rw [he] at hupdate
    cases hupdate
    exact (by decide : 5 < 2 ^ 32)

theorem retryLater_some (hdead : 0 < m.deadTimeout) (hpos : 0 < m.serverFailureLimit) (hlt : m.serverFailureLimit < 2 ^ 32)
    (now : Nat) (server : Server) : retryLater m (some now) server =
      { server with nextRetry := now + m.deadTimeout, serverFailureCounter := m.serverFailureLimit - 1 } := by
  have hcounter : (m.serverFailureLimit + (2 ^ 32 - 1)) % 2 ^ 32 = m.serverFailureLimit - 1 := by omega
  simp only [retryLater, if_pos hdead, hcounter]

/-- Below its limit and past its time for the next try, a server is connected to. -/
theorem memcachedConnect_connected {now : Nat} (hserver : m.servers[s]? = some server) (hclosed : server.isOpen = false)
    (hlimit : server.serverFailureCounter < m.serverFailureLimit) (hnow : server.nextRetry < now) (later : Option Nat) :
    ∃ m' server', memcachedConnect D (some now) later .connected m s server = .ok (.success, m') ∧
      m'.servers[s]? = some server' ∧ server'.isOpen = true ∧ server'.nextRetry = 0 ∧ server'.serverFailureCounter = 0 := by
  obtain ⟨inTimeout, server₁, hcheck⟩ : ∃ inTimeout server₁, checkTimeout (some now) m s server =
      (.success, inTimeout, updateServer m s (fun _ => server₁)) := by
    by_cases hstate : server.state = .inTimeout
    · exact ⟨_, _, (if_pos hstate).trans (if_pos hnow)⟩
    · exact ⟨false, server, by simp only [checkTimeout, if_neg hstate]⟩
  have hget := getElem?_updateServer hserver (fun _ => server₁)
  refine ⟨_, _, ?_, getElem?_updateServer hget (fun server =>
    { markServerAsClean server with isOpen := true, state := .connected }), rfl, rfl, rfl⟩
  rw [memcachedConnect, if_neg (by simp [hclosed]), backoffHandling, if_neg (by omega), hcheck]
  rfl

/-- With a dead timeout, an ejected server is tried again at the first request after the timeout. -/
theorem ejected_retried (h : Configured D m) {events : List Event} {m₁ : Root} (hrun : run D m events = .ok m₁)
    (hserver : m₁.servers[s]? = some server) (hclosed : server.isOpen = false)
    (hlimit : m₁.serverFailureLimit ≤ server.serverFailureCounter) (heject : m₁.autoEjectHosts = true)
    (hdead : 0 < m₁.deadTimeout) (hpos : 0 < m₁.serverFailureLimit) (now : Nat) (later : Option Nat) (network : Network) :
    ∃ rc m₂, memcachedConnect D (some now) later network m₁ s server = .ok (rc, m₂) ∧
      (rc = .serverMarkedDead ∨ rc = .errno) ∧
      ∀ events₂ : List Event, (∀ e ∈ events₂, ¬ Touches s e ∧ ¬ IsBehavior e) →
        ∃ m₃ server₃, run D m₂ events₂ = .ok m₃ ∧ m₃.servers[s]? = some server₃ ∧
          ∀ (u : Nat) (last : Option Nat), (now : Int) + m₁.deadTimeout < u →
            ∃ m₄ server₄, memcachedConnect D (some u) last .connected m₃ s server₃ = .ok (.success, m₄) ∧
              m₄.servers[s]? = some server₄ ∧ server₄.isOpen = true ∧ server₄.nextRetry = 0 ∧
              server₄.serverFailureCounter = 0 := by
  obtain ⟨ring₁, h₁⟩ := serving_of_run h hrun
  obtain ⟨rc, k, he, hrc⟩ := connect_over_limit (D := D) hclosed hlimit heject h₁.sound hserver (some now) later network
  obtain ⟨rc', m₂, he', hsound, hframe, hrebuilt⟩ := memcachedConnect_spec (D := D) h₁.sound (some now) later network hserver
  rw [he] at he'
  cases he'
  obtain ⟨ring₂, h₂⟩ : ∃ ring₂, Serving D { updateServer m₁ s (fun _ => retryLater m₁ (some now) server) with ketama := k }
      ring₂ := by
    rcases h₁.next hsound hframe hrebuilt with h' | ⟨t, -, h'⟩
    · exact ⟨_, h'⟩
    · exact ⟨_, h'⟩
  refine ⟨rc, _, he, hrc, fun events₂ hevents => ?_⟩
  obtain ⟨m₃, ring₃, hrun₃, -, -⟩ := run_serving h₂ events₂
  have hserver₃ := run_server h₂ (fun e hmem => (hevents e hmem).1) (getElem?_updateServer hserver _) hrun₃
  have hlimit₃ := run_settings h₂ (fun e hmem => (hevents e hmem).2) hrun₃
  rw [retryLater_some hdead hpos (run_failureLimit h hrun)] at hserver₃
  refine ⟨m₃, _, hrun₃, hserver₃, fun u last hu => ?_⟩
  apply memcachedConnect_connected hserver₃ hclosed
  · rw [hlimit₃.failureLimit]
    exact Nat.sub_lt hpos Nat.one_pos
  · exact hu

theorem ejected_retried_sample : ∃ m server rc m₂, memcachedConnect sampleDistribution (some 13) none .failed m 0 server =
    .ok (rc, m₂) ∧ (rc = .serverMarkedDead ∨ rc = .errno) := by
  obtain ⟨k, hk, -⟩ := exists_sampleRoot
  obtain ⟨rc, m₂, he, hrc, -⟩ := @ejected_retried sampleDistribution (sampleRoot k) 0 _ hk
    [.behavior .removeFailedServers 1, .behavior .deadTimeout 30, .connect 0 (some 10) (some 10) .failed] _ rfl rfl rfl
    (Nat.le_refl 1) rfl (show (0 : Int) < 30 by decide) Nat.one_pos 13 none .failed
  exact ⟨_, _, rc, m₂, he, hrc⟩

/-- A server over its limit that the client will not try again. -/
structure Condemned (m : Root) (s : Nat) (server : Server) : Prop where
  entry : m.servers[s]? = some server
  closed : server.isOpen = false
  limit : m.serverFailureLimit ≤ server.serverFailureCounter
  autoEject : m.autoEjectHosts = true
  deadTimeout : m.deadTimeout ≤ 0

theorem retryLater_of_nonpos (h : m.deadTimeout ≤ 0) (now : Option Nat) (server : Server) :
    retryLater m now server = server := by
  cases now with
  | none => rfl
  | some now => exact if_neg (not_lt.mpr h)

theorem Condemned.next (h : Condemned m s server) (hsound : Sound m) {e : Event} (hbehavior : ¬ IsBehavior e)
    (hstep : step D m e = .ok m') (hframe : Frame e m m') : ∃ server', Condemned m' s server' := by
  have hsettings := hframe.settings hbehavior
  have hkeep : ∀ server', m'.servers[s]? = some server' → server'.isOpen = false →
      server'.serverFailureCounter = server.serverFailureCounter → ∃ server', Condemned m' s server' := by
    intro server' hserver' hclosed hcounter
    refine ⟨server', hserver', hclosed, ?_, hsettings.autoEject.trans h.autoEject, hsettings.deadTimeout ▸ h.deadTimeout⟩
    rw [hsettings.failureLimit, hcounter]
    exact h.limit
  by_cases htouch : Touches s e
  · cases e with
    | connect t now later network =>
      cases htouch
      obtain ⟨rc, k, he, -⟩ := connect_over_limit (D := D) h.closed h.limit h.autoEject hsound h.entry now later network
      simp only [step, h.entry, he, ok_bind, pure_eq_ok] at hstep
      cases hstep
      rw [retryLater_of_nonpos h.deadTimeout] at hkeep ⊢
      exact hkeep server (getElem?_updateServer h.entry _) h.closed rfl
    | quit t ioDeath =>
      cases htouch
      cases hstep
      refine hkeep _ (getElem?_updateServer h.entry _) ?_ ?_
      · rfl
      · have hopen : ¬ (server.isOpen = true ∧ ioDeath = false) := by simp [h.closed]
        simp only [quitServer, if_neg hopen]
    | nextRetry t absoluteTime =>
      cases htouch
      cases hstep
      exact hkeep _ (getElem?_updateServer h.entry _) h.closed rfl
    | query => exact absurd htouch id
    | lookup key now later => exact absurd htouch id
    | serverAdd host clock => exact absurd htouch id
    | distribution clock => exact absurd htouch id
    | behavior flag data => exact absurd htouch id
  · exact hkeep server (hframe.server s server h.entry htouch) h.closed rfl

theorem run_condemned (hserving : Serving D m ring) (h : Condemned m s server) {events : List Event}
    (hbehavior : ∀ e ∈ events, ¬ IsBehavior e) :
    ∃ m' ring' server', run D m events = .ok m' ∧ Serving D m' ring' ∧ Condemned m' s server' := by
  obtain ⟨m', ring', hrun, hserving', -⟩ := run_serving hserving events
  obtain ⟨server', h'⟩ := run_invariant (P := fun m => ∃ server, Condemned m s server) hserving
    (fun e he m₁ m₂ hsound hstep hframe hold => by
      obtain ⟨server₁, h₁⟩ := hold
      exact h₁.next hsound (hbehavior e he) hstep hframe) ⟨server, h⟩ hrun
  exact ⟨m', ring', server', hrun, hserving', h'⟩

/-- Without a dead timeout, a server that has reached its limit is never tried again, and every rebuild
after its next try routes keys to it. -/
theorem never_connected (h : Configured D m) {events : List Event} {m₁ : Root} (hrun : run D m events = .ok m₁)
    (hserver : m₁.servers[s]? = some server) (hclosed : server.isOpen = false)
    (hlimit : m₁.serverFailureLimit ≤ server.serverFailureCounter) (heject : m₁.autoEjectHosts = true)
    (hdead : m₁.deadTimeout ≤ 0) {events₂ : List Event} (hbehavior : ∀ e ∈ events₂, ¬ IsBehavior e) :
    ∃ m₂ server₂, run D m₁ events₂ = .ok m₂ ∧ m₂.servers[s]? = some server₂ ∧ server₂.isOpen = false ∧
      (∀ now later network, ∃ rc m₃, memcachedConnect D now later network m₂ s server₂ = .ok (rc, m₃) ∧
        (rc = .serverMarkedDead ∨ rc = .errno)) ∧
      ∀ now : Nat, server₂.nextRetry ≤ now →
        ∃ m₃, updateContinuum D (some now) m₂ = .ok (.success, m₃) ∧ OnContinuum m₃.ketama s := by
  obtain ⟨ring₁, hserving₁⟩ := serving_of_run h hrun
  obtain ⟨m₂, ring₂, server₂, hrun₂, hserving₂, h₂⟩ :=
    run_condemned hserving₁ ⟨hserver, hclosed, hlimit, heject, hdead⟩ hbehavior
  refine ⟨m₂, server₂, hrun₂, h₂.entry, h₂.closed, fun now later network => ?_, fun now hnow => ?_⟩
  · obtain ⟨rc, k, he, hrc⟩ := connect_over_limit (D := D) h₂.closed h₂.limit h₂.autoEject hserving₂.sound h₂.entry now
      later network
    exact ⟨rc, _, he, hrc⟩
  · obtain ⟨k, hk, -, -, hbuilt⟩ := updateContinuum_some (D := D) hserving₂.sound.fits hserving₂.sound.allocated now
    have hmem : (server₂.host, s) ∈ liveHosts m₂.autoEjectHosts now m₂.servers :=
      mem_liveHosts.mpr ⟨server₂, h₂.entry, by simpa [isLive, h₂.autoEject] using hnow, rfl⟩
    exact ⟨_, hk, (onContinuum_iff ((if_neg (List.ne_nil_of_mem hmem)).mp hbuilt)).mpr ⟨_, hmem, rfl⟩⟩

theorem never_connected_sample : ∃ m m₂ server, run sampleDistribution m [.quit 0 true] = .ok m₂ ∧
    m₂.servers[0]? = some server ∧ server.isOpen = false := by
  obtain ⟨k, hk, -⟩ := exists_sampleRoot
  obtain ⟨m₂, server₂, hrun, hserver, hclosed, -⟩ := @never_connected sampleDistribution (sampleRoot k) 0 _ hk
    [.behavior .removeFailedServers 1, .connect 0 (some 10) (some 10) .failed] _ rfl rfl rfl (Nat.le_refl 1) rfl (le_refl 0)
    [.quit 0 true] (by simp [IsBehavior])
  exact ⟨_, m₂, server₂, hrun, hserver, hclosed⟩

theorem run_host {events : List Event} (h : Serving D m ring) (hrun : run D m events = .ok m') {i : Nat}
    (hserver : m.servers[i]? = some server) : ∃ server', m'.servers[i]? = some server' ∧ server'.host = server.host := by
  apply run_invariant (P := fun m => ∃ server', m.servers[i]? = some server' ∧ server'.host = server.host) h ?_
    ⟨server, hserver, rfl⟩ hrun
  rintro e - m₁ m₂ - - hframe ⟨server₁, hserver₁, hhost₁⟩
  obtain ⟨server₂, hserver₂, hhost₂⟩ := hframe.host i server₁ hserver₁
  exact ⟨server₂, hserver₂, hhost₂.trans hhost₁⟩

theorem apart_sampleHosts : Apart sampleDistribution (sampleHosts.zipIdx) := by
  have hfirst : ∀ p, point sampleDistribution ⟨[0], 1⟩ p = 0 := fun p => rfl
  have hsecond : ∀ p, point sampleDistribution ⟨[1], 1⟩ p = 1 := fun p => rfl
  intro x hx y hy p _ q _ heq
  simp only [sampleHosts, List.zipIdx_cons, List.zipIdx_nil, List.mem_cons, List.not_mem_nil, or_false] at hx hy
  rcases hx with rfl | rfl <;> rcases hy with rfl | rfl <;> simp_all

end OptLrc.Ejected
