import OptLrc.Triple
import OptLrc.Runs
import OptLrc.Unreadable

namespace OptLrc.Keeping

open OptLrc.Galois OptLrc.Memory OptLrc.Jerasure OptLrc.Encoder OptLrc.Stripe OptLrc.Process
open OptLrc.Process.Proc OptLrc.Memcached OptLrc.Exchange OptLrc.Storage OptLrc.Retrieval OptLrc.Repair
open OptLrc.Sync OptLrc.Wire OptLrc.Core OptLrc.Fetch OptLrc.Stored OptLrc.Writes OptLrc.Updates
open OptLrc.Arrival OptLrc.Runs OptLrc.Reads OptLrc.Gets OptLrc.Unreadable

variable {σ α β : Type} {E : Env Request Reply σ} {V : CodingMatrix} {c₀ c : Client} {x : σ}
  {place : Nat → Nat}

/-- A client between two steps of its calls: its code and its placement are those that it was
given, and every reply on its way to it is accounted for. -/
structure Ready (c₀ : Client) (place : Nat → Nat) (c : Client) : Prop where
  code : SameCode c₀ c
  placed : Placed c place
  synced : Io.Synced c.serverCount c.io

/-- Each server owes at most one reply. -/
structure Fetching (c₀ : Client) (place : Nat → Nat) (c : Client) : Prop extends Ready c₀ place c where
  one : ∀ s, (c.io.conn s).responseCount ≤ 1

theorem Ready.io (h : Ready c₀ place c) {io : Io} (hs : Io.Synced c.serverCount io) :
    Ready c₀ place { c with io := io } := by
  refine ⟨?_, h.placed.io io, hs⟩
  have hcode := h.code
  unfold SameCode at hcode ⊢
  rw [hcode]

theorem Ready.fail (h : Ready c₀ place c) {p : Nat} (hp : p < c.numberOfN) :
    Ready c₀ place { c with failNodeIndex := p } := by
  refine ⟨?_, h.placed.failing hp, h.synced⟩
  have hcode := h.code
  unfold SameCode at hcode ⊢
  rw [hcode]

theorem Ready.codeOn (h : Ready c₀ place c) : Ready c₀ place { c with numberOfB := 1 } := by
  refine ⟨?_, h.placed.codeOn, h.synced⟩
  have hcode := h.code
  unfold SameCode at hcode ⊢
  rw [hcode]

theorem Ready.serverCount_ne (h : Ready c₀ place c) : c.serverCount ≠ 0 := by
  have := h.placed.core
  omega

theorem Ready.reset (h : Ready c₀ place c) : Ready c₀ place (Client.resetResult c) :=
  h.io ⟨h.synced.conn, h.synced.idle⟩

theorem exec_mget_empty (hcount : c.serverCount ≠ 0) :
    (memcachedMget []).exec E c x = (.ok (.invalidArguments, Client.resetResult c), x) := by
  simp only [memcachedMget, mgetByKeyReal, Proc.exec_bind, exec_initializeQuery E c x hcount, ne_eq,
    not_true_eq_false, if_false, if_true, Proc.exec_pure]

theorem exec_mget_badKey (hcount : c.serverCount ≠ 0) {keys : List Key} (hnil : keys ≠ [])
    (hall : ¬ keys.all memcachedKeyTest = true) :
    (memcachedMget keys).exec E c x = (.ok (.badKeyProvided, Client.resetResult c), x) := by
  simp only [memcachedMget, mgetByKeyReal, Proc.exec_bind, exec_initializeQuery E c x hcount, ne_eq,
    not_true_eq_false, if_false, hnil, hall, Bool.false_eq_true, not_false_eq_true, if_true, Proc.exec_pure]

/-- The block keys of a key of 249 or 250 bytes are refused before anything is sent. -/
theorem exec_memcachedGet_long (hp : Placed c place) {key : Key} (hkey : 248 < key.length) (valueLength : Nat) :
    (memcachedGet V key valueLength).exec E c x =
      (.ok (⟨none, valueLength, .badKeyProvided, none⟩, Client.resetResult c), x) := by
  have hcount : c.serverCount ≠ 0 := by
    have := hp.core
    omega
  have hmem : blockKey key (position c.numberOfR 0) ∈ blockKeys key (position c.numberOfR) c.numberOfK :=
    List.mem_map.mpr ⟨0, List.mem_range.mpr hp.valid.k_pos, rfl⟩
  have hbad : ¬ (blockKeys key (position c.numberOfR) c.numberOfK).all memcachedKeyTest = true := by
    intro h
    have := (keyTest_blockKey_iff _).mp (List.all_eq_true.mp h _ hmem)
    omega
  rw [exec_memcachedGet hp, Proc.exec_bind_ok E c x
    (exec_mget_badKey hcount (List.ne_nil_of_mem hmem) hbad), if_neg (by decide)]
  rfl

section Mget

variable (hE : Replying E)
include hE

theorem exchange_settles (s : Nat) (keys : List Key) (x : σ) :
    Settles (E.exchange s (keys.map .getkq ++ [.noop]) x).1 1 := by
  obtain ⟨hits, last, he, hh, hl⟩ : ∃ hits last, (E.exchange s (keys.map .getkq ++ [.noop]) x).1 =
      hits ++ [last] ∧ (∀ reply ∈ hits, Reply.quietHit reply ∨ Reply.fatal reply) ∧ ¬ Reply.quietHit last := by
    induction keys generalizing x with
    | nil =>
      obtain ⟨reply, hr, hop⟩ := hE.one s .noop x (by simp [Request.opcode])
      exact ⟨[], reply, by simp [Env.exchange, hr], by simp, not_quietHit hop (by simp [Request.opcode])⟩
    | cons key keys ih =>
      obtain ⟨hits, last, he, hh, hl⟩ := ih (E.serve s (.getkq key) x).2
      refine ⟨(E.serve s (.getkq key) x).1 ++ hits, last, ?_, fun reply hr => ?_, hl⟩
      · simp [Env.exchange, he]
      · rcases List.mem_append.mp hr with hr | hr
        · exact hE.quiet s key x reply hr
        · exact hh reply hr
  rw [he]
  exact settles_quiet hits hh hl

theorem synced_mgetConn {route : Key → Nat} {keys : List Key} {hosts : Nat}
    (hroute : ∀ key ∈ keys, route key < hosts) (x : σ) (result : Result) :
    Io.Synced hosts ⟨mgetConn E route keys x, result⟩ := by
  refine ⟨fun s => ?_, fun s hs => ?_⟩
  · simp only [mgetConn]
    split
    · exact ⟨rfl, exchange_settles hE s _ _⟩
    · exact synced_idle
  · simp only [mgetConn]
    rw [if_neg]
    intro hmem
    obtain ⟨key, hkey, rfl⟩ := List.mem_map.mp hmem
    have := hroute key hkey
    omega

theorem triple_mget (keys : List Key) :
    Triple E (Ready c₀ place) (memcachedMget keys)
      (fun rc c => Ready c₀ place c ∧ (rc = .success → Fetching c₀ place c)) := by
  intro c x rc c' y h he
  have hcount := h.serverCount_ne
  have hrc : ∀ rc', rc' ≠ ReturnCode.success → (memcachedMget keys).exec E c x =
      (.ok (rc', Client.resetResult c), x) →
      Ready c₀ place c' ∧ (rc = .success → Fetching c₀ place c') := by
    intro rc' hne hex
    rw [hex] at he
    cases he
    exact ⟨h.reset, fun h => absurd h hne⟩
  by_cases hnil : keys = []
  · subst hnil
    exact hrc .invalidArguments (by decide) (exec_mget_empty hcount)
  by_cases hall : keys.all memcachedKeyTest = true
  · by_cases hroute : ∀ key ∈ keys, ∃ s, routeKey c keys.length key = .ok s
    · let route : Key → Nat := fun key => (routeKey c keys.length key).toOption.getD 0
      have hr : ∀ key ∈ keys, routeKey c keys.length key = .ok (route key) := by
        intro key hkey
        obtain ⟨s, hs⟩ := hroute key hkey
        simp only [route, hs, Except.toOption, Option.getD_some]
      obtain ⟨result, hex⟩ := exec_memcachedMget E x h.synced hnil (List.all_eq_true.mp hall) hr
      rw [hex] at he
      cases he
      have hs := synced_mgetConn hE (fun key hkey => routeKey_lt (hr key hkey)) x result
      refine ⟨h.io hs, fun _ => ⟨h.io hs, fun s => ?_⟩⟩
      simp only [mgetConn]
      split
      · exact le_rfl
      · exact Nat.zero_le 1
    · push Not at hroute
      obtain ⟨key, hkey, hno⟩ := hroute
      cases hk : routeKey c keys.length key with
      | ok s => exact absurd hk (hno s)
      | error e =>
        obtain ⟨e', y', hex⟩ := mget_faults (E := E) (x := x) h.placed h.synced (List.all_eq_true.mp hall) hkey hk
        rw [hex] at he
        cases he
  · exact hrc .badKeyProvided (by decide) (exec_mget_badKey hcount hnil hall)

end Mget

theorem triple_fetchResult :
    Triple E (Fetching c₀ place) memcachedFetchResult (fun _ => Fetching c₀ place) := by
  intro c x r c' y h he
  obtain ⟨r', io, z, hex, hs, hone, -⟩ := exec_fetchLoop_synced E (Client.unread c + 1) .notFound c x h.synced
    h.one (Nat.lt_succ_self _)
  have hex' : memcachedFetchResult.exec E c x = (.ok (r', { c with io := io }), z) := hex
  rw [hex'] at he
  cases he
  exact ⟨h.toReady.io hs, hone⟩

/-- A fetch loop keeps the invariant of its own variables as well. -/
theorem triple_fetchEach {body : β → Result → Except Fault β} {I : β → Prop}
    (hbody : ∀ st result st', I st → body st result = .ok st' → I st') (m : Nat) {st : β} (hst : I st) :
    Triple E (Fetching c₀ place) (fetchEach body m st) (fun st' c => Fetching c₀ place c ∧ I st') := by
  induction m generalizing st with
  | zero => exact triple_pure (fun _ h => ⟨h, hst⟩)
  | succ m ih =>
    refine triple_fetchResult.bind (fun r => ?_)
    obtain ⟨result, rc⟩ := r
    cases result with
    | none => exact ih hst
    | some result =>
      refine Triple.bind (Q := fun st' c => Fetching c₀ place c ∧ I st')
        (triple_lift (fun st' he c h => ⟨h, hbody st result st' hst he⟩)) (fun st' => ?_)
      intro c x a c' y h he
      exact ih h.2 c x a c' y h.1 he

section Calls

variable (hE : Replying E)
include hE

theorem triple_cross (key : Key) (value : Block) :
    Triple E (Ready c₀ place) (crossNetworkcore key value) (fun _ => Ready c₀ place) := by
  intro c x a c' y h he
  obtain ⟨io, z, hex, hs, -⟩ := exec_cross hE (x := x) h.placed h.synced key value
  rw [hex] at he
  cases he
  exact h.io hs

theorem triple_writeBack (V : CodingMatrix) (key : Key) (block : Block) (size : Nat) :
    Triple E (Ready c₀ place) (writeBack V key block size) (fun _ => Ready c₀ place) := by
  intro c x a c' y h he
  by_cases hsize : size ≤ block.length
  · by_cases hkey : memcachedKeyTest key = true
    · obtain ⟨io, hex, hs⟩ := exec_writeBack hE h.placed h.synced (x := x) V hkey hsize
      rw [hex] at he
      cases he
      exact (h.io hs).codeOn
    · have hcount : ({ c with numberOfB := 0 } : Client).serverCount ≠ 0 := h.serverCount_ne
      simp only [writeBack, setNumberOfB, Proc.exec_bind, Proc.exec_modify, readRange_take block size hsize,
        Proc.exec_lift_ok, memcachedSet, memcachedSendWith, exec_initializeQuery E _ x hcount, ne_eq,
        not_true_eq_false, if_false, hkey, not_false_eq_true, if_true, Proc.exec_pure, Bool.false_eq_true] at he
      cases he
      exact h.reset.codeOn
  · have hread : readRange block 0 size = .error .outOfBounds := by
      rw [readRange, if_neg (by omega)]
    simp only [writeBack, setNumberOfB, Proc.exec_bind, Proc.exec_modify, hread, Proc.exec_lift_error] at he
    cases he

theorem triple_crossTimes (key : Key) (ptrs : Cells Block) (size m : Nat) :
    Triple E (Ready c₀ place) (crossTimes key ptrs size m) (fun _ => Ready c₀ place) := by
  refine Triple.each (fun _ _ => ?_)
  refine (triple_lift (fun _ _ _ h => h)).bind (fun block => ?_)
  exact (triple_lift (fun _ _ _ h => h)).bind (fun value => triple_cross hE key value)

theorem triple_crossData (key : Key) (r fail : Nat) (st : Fetched) (l : List Nat) :
    Triple E (Ready c₀ place) (Proc.each (crossData key r fail st) l) (fun _ => Ready c₀ place) := by
  refine Triple.each (fun i _ => ?_)
  unfold crossData
  split
  · refine (triple_lift (fun _ _ _ h => h)).bind (fun block => ?_)
    exact (triple_lift (fun _ _ _ h => h)).bind (fun value => triple_cross hE _ value)
  · exact triple_pure (fun _ h => h)

omit hE in
theorem triple_fetch {body : β → Result → Except Fault β} {I : β → Prop}
    (hbody : ∀ st result st', I st → body st result = .ok st' → I st') {rc : ReturnCode} {m : Nat} {st : β}
    (hst : I st) {f : β → Prog α} {R : α → Client → Prop}
    (hf : ∀ st', I st' → Triple E (Ready c₀ place) (f st') R) :
    Triple E (fun c => Ready c₀ place c ∧ (rc = .success → Fetching c₀ place c))
      (if rc = .success then fetchEach body m st >>= f else Pure.pure st >>= f) R := by
  split
  · next hrc =>
    refine ((triple_fetchEach hbody m hst).mono (fun _ h => h.2 hrc) (fun _ _ h => h)).bind (fun st' => ?_)
    intro c x a c' y h he
    exact hf st' h.2 c x a c' y h.1.toReady he
  · exact (hf st hst).mono (fun _ h => h.1) (fun _ _ h => h)

theorem triple_repairData {key : Key} {fail : Nat} (st : Fetched) (hfail : fail < c₀.numberOfK) :
    Triple E (Ready c₀ place) (repairData V key fail st) (fun _ => Ready c₀ place) := by
  refine Triple.bind (Q := fun _ => Ready c₀ place) (triple_modify (fun c h => ?_)) (fun _ => ?_)
  · obtain ⟨f, b, io, rfl⟩ := h.code.exists
    exact h.fail (position_lt h.placed.valid hfail)
  refine Triple.bind (triple_get (Q := fun _ => Ready c₀ place) (fun _ h => h)) (fun c => ?_)
  refine Triple.bind (triple_lift (Q := fun _ => Ready c₀ place) (fun _ _ _ h => h)) (fun subValues => ?_)
  refine Triple.bind (triple_lift (Q := fun _ => Ready c₀ place) (fun _ _ _ h => h)) (fun gathered => ?_)
  refine (triple_mget hE _).bind (fun rc => ?_)
  refine triple_fetch (I := fun _ => True) (fun _ _ _ _ _ => trivial) trivial (fun decoding _ => ?_)
  refine (triple_crossTimes hE _ _ _ _).bind (fun _ => ?_)
  refine Triple.bind (triple_lift (Q := fun _ => Ready c₀ place) (fun _ _ _ h => h)) (fun dataPtrs => ?_)
  refine Triple.bind (triple_lift (Q := fun _ => Ready c₀ place) (fun _ _ _ h => h)) (fun decoded => ?_)
  refine Triple.bind (triple_lift (Q := fun _ => Ready c₀ place) (fun _ _ _ h => h)) (fun block => ?_)
  refine (triple_writeBack hE V _ _ _).bind (fun _ => ?_)
  refine Triple.bind (triple_lift (Q := fun _ => Ready c₀ place) (fun _ _ _ h => h)) (fun subValues => ?_)
  exact triple_pure (fun _ h => h)

omit hE in
theorem failIndex_lt (n : Nat) (nodeFail : List Bool) :
    failIndex n nodeFail = n ∨ failIndex n nodeFail < nodeFail.length := by
  have hrun : ∀ m ≤ nodeFail.length, (List.range m).foldl
      (fun fail i => if nodeFail[i]? = some true then i else fail) n = n ∨
      (List.range m).foldl (fun fail i => if nodeFail[i]? = some true then i else fail) n <
        nodeFail.length := by
    intro m hm
    induction m with
    | zero => exact Or.inl rfl
    | succ m ih =>
      rw [List.range_succ, List.foldl_append, List.foldl_cons, List.foldl_nil]
      split
      · exact Or.inr (by omega)
      · exact ih (by omega)
  exact hrun _ le_rfl

omit hE in
theorem storeFetched_nodeFail {keyLength k : Nat} {keys : List Key} {st st' : Fetched} {result : Result}
    (h : storeFetched keyLength k keys st result = .ok st') :
    ∃ i, matchKey keyLength keys result.itemKey = .ok i ∧ st'.nodeFail = st.nodeFail.set i false := by
  obtain ⟨i, hi, h⟩ := bind_eq_ok.mp h
  obtain ⟨block, -, h⟩ := bind_eq_ok.mp h
  obtain ⟨sub, -, h⟩ := bind_eq_ok.mp h
  cases h
  exact ⟨i, hi, rfl⟩

theorem triple_memcachedGet (key : Key) (valueLength : Nat) :
    Triple E (Ready c₀ place) (memcachedGet V key valueLength) (fun _ => Ready c₀ place) := by
  intro c x a c' y h he
  rw [exec_memcachedGet h.placed] at he
  obtain ⟨f, b, io, hc⟩ := h.code.exists
  have hk : c.numberOfK = c₀.numberOfK := by rw [hc]
  refine (triple_mget hE _).bind (R := fun _ => Ready c₀ place) (fun rc => ?_) c x a c' y h he
  split
  · next hrc =>
    refine ((triple_fetchEach (I := fun st => st.nodeFail.length = c₀.numberOfK)
      (fun st result st' hst hbody => by
        obtain ⟨i, -, hfail⟩ := storeFetched_nodeFail hbody
        rw [hfail, List.length_set, hst]) _ ?_).mono
      (fun _ h => h.2 hrc) (fun _ _ h => h)).bind (fun st => ?_)
    · simp [firstState, hk]
    · intro c1 x1 a1 c2 y2 h1 he1
      refine (triple_crossData hE _ _ _ _ _).bind (R := fun _ => Ready c₀ place) (fun _ => ?_) c1 x1 a1 c2 y2
        h1.1.toReady he1
      have hlt := failIndex_lt c.numberOfN st.nodeFail
      split
      · next hfail =>
        refine (triple_repairData hE st (by rw [← h1.2]; exact hlt.resolve_left hfail)).bind (fun st' => ?_)
        exact (triple_lift (fun _ _ _ h => h)).bind (fun value => triple_pure (fun _ h => h))
      · exact (triple_lift (fun _ _ _ h => h)).bind (fun value => triple_pure (fun _ h => h))
  · exact triple_pure (fun _ h => h.1)

theorem triple_memcachedRepair (key : Key) (valueLength : Nat) {p : Nat} (hp : p < c₀.numberOfN) :
    Triple E (Ready c₀ place) (memcachedRepair V key valueLength p) (fun _ => Ready c₀ place) := by
  have hrebuild : Triple E (Ready c₀ place) (rebuild V key valueLength p) (fun _ => Ready c₀ place) := by
    refine Triple.bind (triple_get (Q := fun _ => Ready c₀ place) (fun _ h => h)) (fun c => ?_)
    refine (triple_mget hE _).bind (fun rc => ?_)
    split
    · next hrc =>
      refine Triple.bind (triple_lift (Q := fun _ => Fetching c₀ place) (fun _ _ _ h => h.2 hrc))
        (fun num => ?_)
      refine ((triple_fetchEach (I := fun _ => True) (fun _ _ _ _ _ => trivial) _ trivial).mono (fun _ h => h)
        (fun _ _ h => h.1.toReady)).bind (fun st => ?_)
      refine Triple.bind (triple_lift (Q := fun _ => Ready c₀ place) (fun _ _ _ h => h)) (fun coding => ?_)
      refine Triple.bind (triple_lift (Q := fun _ => Ready c₀ place) (fun _ _ _ h => h)) (fun sub => ?_)
      refine (triple_crossTimes hE _ _ _ _).bind (fun _ => ?_)
      refine Triple.bind (triple_lift (Q := fun _ => Ready c₀ place) (fun _ _ _ h => h)) (fun decoded => ?_)
      refine Triple.bind (triple_lift (Q := fun _ => Ready c₀ place) (fun _ _ _ h => h)) (fun block => ?_)
      exact triple_pure (fun _ h => h)
    · exact triple_pure (fun _ h => h.1)
  refine hrebuild.bind (fun r => ?_)
  obtain ⟨rc, rebuilt⟩ := r
  cases rebuilt with
  | none => exact triple_pure (fun _ h => h)
  | some r =>
    refine Triple.bind (triple_modify (Q := fun _ => Ready c₀ place) (fun c h => ?_)) (fun _ => ?_)
    · obtain ⟨f, b, io, hc⟩ := h.code.exists
      exact h.fail (by rw [hc]; exact hp)
    · exact (triple_writeBack hE V _ _ _).bind (fun _ => triple_pure (fun _ h => h))

end Calls

end OptLrc.Keeping
