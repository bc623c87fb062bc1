import OptLrc.Core
import OptLrc.Retrieval

namespace OptLrc.Fetch

open OptLrc.Galois OptLrc.Memory OptLrc.Jerasure OptLrc.Encoder OptLrc.Process OptLrc.Memcached
open OptLrc.Exchange OptLrc.Retrieval OptLrc.Sync OptLrc.Wire OptLrc.Core

variable {σ β : Type} (E : Env Request Reply σ)

/-- A readable server owes a reply. -/
theorem exec_readableServer (c : Client) (x : σ) :
    ((∀ s < c.serverCount, (c.io.conn s).responseCount = 0) ∧
      readableServer.exec E c x = (.ok (none, c), x)) ∨
    ∃ s y, s < c.serverCount ∧ (c.io.conn s).responseCount ≠ 0 ∧ E.Picks x y ∧
      readableServer.exec E c x = (.ok (some s, c), y) := by
  have hmem : ∀ s, s ∈ (List.range c.serverCount).filter (fun s => 0 < (c.io.conn s).responseCount) ↔
      s < c.serverCount ∧ (c.io.conn s).responseCount ≠ 0 := by
    intro s
    simp [Nat.pos_iff_ne_zero]
  cases hl : (List.range c.serverCount).filter (fun s => 0 < (c.io.conn s).responseCount) with
  | nil =>
    refine Or.inl ⟨fun s hs => ?_, by simp [readableServer, Proc.exec_bind, hl]⟩
    by_contra h0
    have := (hmem s).mpr ⟨hs, h0⟩
    rw [hl] at this
    cases this
  | cons s rest =>
    right
    cases rest with
    | nil =>
      obtain ⟨hs, h0⟩ := (hmem s).mp (by simp [hl])
      exact ⟨s, x, hs, h0, .refl x, by simp [readableServer, Proc.exec_bind, hl]⟩
    | cons t rest =>
      have hp := E.pick_mem s t rest x
      rw [← hl] at hp
      obtain ⟨hs, h0⟩ := (hmem _).mp hp
      exact ⟨_, _, hs, h0, .step s t rest x _ (.refl _),
        by simp [readableServer, Proc.exec_bind, hl]⟩

theorem sum_map_update_lt {f g : Nat → Nat} {s count : Nat} (hs : s < count) (hlt : g s < f s)
    (hne : ∀ t, t ≠ s → g t = f t) :
    ((List.range count).map g).sum < ((List.range count).map f).sum := by
  refine List.sum_lt_sum _ _ (fun t _ => ?_) ⟨s, List.mem_range.mpr hs, hlt⟩
  by_cases h : t = s
  · rw [h]
    exact Nat.le_of_lt hlt
  · rw [hne t h]

theorem synced_set {hosts s : Nat} {io : Io} (h : Io.Synced hosts io) {conn : Conn}
    (hc : Conn.Synced conn) (hs : s < hosts) (result : Result) :
    Io.Synced hosts { io.set s conn with result := result } := by
  refine ⟨fun t => ?_, fun t ht => ?_⟩
  · by_cases h' : t = s
    · subst h'
      simpa [Io.set] using hc
    · simpa [Io.set, h'] using h.conn t
  · have h' : t ≠ s := by omega
    simpa [Io.set, h'] using h.idle t ht

/-- After a multi-get each server owes at most one reply. Reading a result keeps the replies
accounted for, whatever their statuses. -/
theorem exec_fetchLoop_synced (fuel : Nat) (error : ReturnCode) (c : Client) (x : σ)
    (hs : Io.Synced c.serverCount c.io) (hone : ∀ s, (c.io.conn s).responseCount ≤ 1)
    (hf : Client.unread c < fuel) :
    ∃ r io y, (fetchLoop fuel error).exec E c x = (.ok (r, { c with io := io }), y) ∧
      Io.Synced c.serverCount io ∧ (∀ s, (io.conn s).responseCount ≤ 1) ∧ E.Picks x y := by
  induction fuel generalizing c x error with
  | zero => omega
  | succ fuel ih =>
    rcases exec_readableServer E c x with ⟨-, hnone⟩ | ⟨s, y, hlt, h0, hp, hsome⟩
    · exact ⟨_, c.io, x, exec_fetchLoop_none E c x hnone, hs, hone, .refl x⟩
    · obtain ⟨rc, conn, result, hread, hsync, hlen⟩ := readOneResponse_synced (hs.conn s) h0 c.io.result
      obtain ⟨hcount, hfin⟩ := readOneResponse_count hread (by have := hone s; omega)
      have hs' := synced_set hs hsync hlt result
      have hone' : ∀ t, (({ c.io.set s conn with result := result } : Io).conn t).responseCount ≤ 1 := by
        intro t
        by_cases h : t = s
        · subst h
          simpa [Io.set] using hcount
        · simpa [Io.set, h] using hone t
      have hless : Client.unread { c with io := { c.io.set s conn with result := result } } < fuel := by
        refine Nat.lt_of_lt_of_le (sum_map_update_lt hlt ?_ (fun t ht => ?_)) (Nat.lt_succ_iff.mp hf)
        · simpa [Io.set] using hlen
        · simp [Io.set, ht]
      rw [exec_fetchLoop_some E c x hsome, fetchTurn,
        Proc.exec_bind_ok E c y (exec_memcachedResponse E c y hread)]
      obtain ⟨r, io, z, he, hs'', hone'', hp'⟩ := ih .notFound
        { c with io := { c.io.set s conn with result := result } } y hs' hone' hless
      cases rc with
      | success => exact ⟨_, _, y, rfl, hs', hone', hp⟩
      | notFound => exact ⟨r, io, z, he, hs'', hone'', hp.trans hp'⟩
      | finished =>
        have hconn : (({ c with io := { c.io.set s conn with result := result } } : Client).setConn s
            { conn with responseCount := 0 }) =
            { c with io := { c.io.set s conn with result := result } } := by
          rw [show ({ conn with responseCount := 0 } : Conn) = conn by rw [← hfin rfl]]
          simp [Client.setConn, Io.set]
        refine ⟨r, io, z, ?_, hs'', hone'', hp.trans hp'⟩
        simp only [Proc.exec_bind, exec_modifyConn]
        rw [show (({ c with io := { c.io.set s conn with result := result } } : Client).io.conn s) = conn by
          simp [Io.set], hconn]
        exact he
      | _ => exact ⟨_, _, y, rfl, hs', hone', hp⟩

/-- The connections when the servers owe hits and then the reply to a no-operation. -/
def pendingConn (pending : Nat → Option (List Reply)) (s : Nat) : Conn :=
  match pending s with
  | none => .idle
  | some hits => ⟨[], hits ++ [.ok .noop], 1⟩

def hitsOf (count : Nat) (pending : Nat → Option (List Reply)) : List Reply :=
  (List.range count).flatMap (fun s => (pending s).getD [])

structure Pending (count : Nat) (pending : Nat → Option (List Reply)) : Prop where
  quiet : ∀ s hits, pending s = some hits → ∀ reply ∈ hits, Reply.quietHit reply
  bound : ∀ s, count ≤ s → pending s = none

def Reply.result (reply : Reply) : Result := ⟨reply.key, reply.flags, reply.value⟩

theorem Pending.update {count s : Nat} {pending : Nat → Option (List Reply)} (h : Pending count pending)
    (hs : s < count) {hits : Option (List Reply)}
    (hq : ∀ l, hits = some l → ∀ reply ∈ l, Reply.quietHit reply) :
    Pending count (Function.update pending s hits) := by
  refine ⟨fun t l hl => ?_, fun t ht => ?_⟩
  · by_cases h' : t = s
    · subst h'
      exact hq l (by simpa using hl)
    · exact h.quiet t l (by simpa [h'] using hl)
  · have h' : t ≠ s := by omega
    simpa [h'] using h.bound t ht

theorem pendingConn_update (pending : Nat → Option (List Reply)) (s : Nat) (hits : Option (List Reply)) :
    Function.update (pendingConn pending) s (pendingConn (Function.update pending s hits) s) =
      pendingConn (Function.update pending s hits) := by
  funext t
  by_cases h : t = s
  · subst h
    simp
  · simp [pendingConn, h]

theorem Pending.synced {count : Nat} {pending : Nat → Option (List Reply)} (h : Pending count pending)
    (result : Result) : Io.Synced count ⟨pendingConn pending, result⟩ := by
  refine ⟨fun s => ?_, fun s hs => ?_⟩
  · cases hp : pending s with
    | none =>
      simp only [pendingConn, hp]
      exact synced_idle
    | some hits =>
      simp only [pendingConn, hp]
      exact ⟨rfl, settles_quiet hits (fun reply hr => Or.inl (h.quiet s hits hp reply hr))
        (by simp [Reply.quietHit, Reply.ok])⟩
  · simp [pendingConn, h.bound s hs]

theorem hitsOf_update {count s : Nat} (hs : s < count) (pending : Nat → Option (List Reply))
    (hits : Option (List Reply)) :
    (hitsOf count pending ++ hits.getD []).Perm
      (hitsOf count (Function.update pending s hits) ++ (pending s).getD []) := by
  induction count with
  | zero => omega
  | succ count ih =>
    simp only [hitsOf, List.range_succ, List.flatMap_append, List.flatMap_singleton]
    by_cases h : s = count
    · subst h
      have hframe : (List.range s).flatMap (fun t => (Function.update pending s hits t).getD []) =
          (List.range s).flatMap (fun t => (pending t).getD []) := by
        refine List.flatMap_congr (fun t ht => ?_)
        rw [Function.update_of_ne (by have := List.mem_range.mp ht; omega)]
      rw [hframe, Function.update_self, List.append_assoc, List.append_assoc]
      exact List.Perm.append_left _ List.perm_append_comm
    · have hswap : ∀ a b d : List Reply, ((a ++ b) ++ d).Perm ((a ++ d) ++ b) := fun a b d => by
        rw [List.append_assoc, List.append_assoc]
        exact List.Perm.append_left _ List.perm_append_comm
      have := ih (by omega)
      unfold hitsOf at this
      rw [Function.update_of_ne (Ne.symm h)]
      exact (hswap _ _ _).trans ((this.append_right _).trans (hswap _ _ _))

section Turns

variable (next : Prog (Option Result × ReturnCode)) {c : Client} {pending : Nat → Option (List Reply)} {s : Nat}
  (hc : c.io.conn = pendingConn pending) (x : σ)
include hc

theorem pending_of_owing (h0 : (c.io.conn s).responseCount ≠ 0) : ∃ hits, pending s = some hits := by
  cases hps : pending s with
  | none => simp [hc, pendingConn, hps, Conn.idle] at h0
  | some hits => exact ⟨hits, rfl⟩

theorem exec_fetchTurn_hit {reply : Reply} {rest : List Reply} (hps : pending s = some (reply :: rest))
    (hq : Reply.quietHit reply) :
    (fetchTurn next s).exec E c x = (.ok ((some (Reply.result reply), .success),
      { c with io := ⟨pendingConn (Function.update pending s (some rest)), Reply.result reply⟩ }), x) := by
  have hread : readOneResponse (c.io.conn s) c.io.result =
      .ok (.success, ⟨[], rest ++ [.ok .noop], 1⟩, Reply.result reply) := by
    simp only [hc, pendingConn, hps]
    obtain ⟨opcode, status, key, flags, value⟩ := reply
    obtain ⟨rfl, rfl⟩ := hq
    rfl
  have hset : Function.update (pendingConn pending) s ⟨[], rest ++ [.ok .noop], 1⟩ =
      pendingConn (Function.update pending s (some rest)) := by
    rw [← pendingConn_update]
    simp [pendingConn]
  rw [fetchTurn, Proc.exec_bind_ok E c x (exec_memcachedResponse E c x hread)]
  simp only [Io.set, hc, hset]
  rfl

/-- The reply to the no-operation ends the replies of its server. -/
theorem exec_fetchTurn_end (hps : pending s = some []) :
    (fetchTurn next s).exec E c x =
      next.exec E { c with io := ⟨pendingConn (Function.update pending s none), c.io.result⟩ } x := by
  have hread : readOneResponse (c.io.conn s) c.io.result = .ok (.finished, .idle, c.io.result) := by
    simp only [hc, pendingConn, hps]
    rfl
  have hset : Function.update (pendingConn pending) s .idle = pendingConn (Function.update pending s none) := by
    rw [← pendingConn_update]
    simp [pendingConn]
  have hreset : ({ c with io := { c.io.set s .idle with result := c.io.result } } : Client).setConn s
      { Conn.idle with responseCount := 0 } =
      { c with io := ⟨pendingConn (Function.update pending s none), c.io.result⟩ } := by
    rw [← hset, ← hc]
    simp [Client.setConn, Io.set, Conn.idle]
  rw [fetchTurn, Proc.exec_bind_ok E c x (exec_memcachedResponse E c x hread)]
  simp only [Proc.exec_bind, exec_modifyConn]
  rw [show (c.io.set s .idle).conn s = .idle by simp [Io.set], hreset]

end Turns

theorem unread_end {c : Client} {pending : Nat → Option (List Reply)} {s : Nat}
    (hc : c.io.conn = pendingConn pending) (hs : s < c.serverCount) (hps : pending s = some []) (result : Result) :
    Client.unread { c with io := ⟨pendingConn (Function.update pending s none), result⟩ } < Client.unread c := by
  refine sum_map_update_lt hs ?_ (fun t ht => ?_)
  · simp [hc, pendingConn, hps, Conn.idle]
  · simp [hc, pendingConn, ht]

/-- Fetching returns one of the hits, or none when there is none. -/
theorem exec_fetchLoop_hits (fuel : Nat) (c : Client) (x : σ) (pending : Nat → Option (List Reply))
    (hc : c.io.conn = pendingConn pending) (hh : Pending c.serverCount pending)
    (hf : Client.unread c < fuel) :
    (hitsOf c.serverCount pending = [] ∧ ∃ result y, E.Picks x y ∧
      (fetchLoop fuel .notFound).exec E c x =
        (.ok ((none, .notFound), { c with io := ⟨fun _ => .idle, result⟩ }), y)) ∨
    ∃ reply pending' y, (hitsOf c.serverCount pending).Perm (reply :: hitsOf c.serverCount pending') ∧
      Pending c.serverCount pending' ∧ E.Picks x y ∧
      (fetchLoop fuel .notFound).exec E c x =
        (.ok ((some (Reply.result reply), .success),
          { c with io := ⟨pendingConn pending', Reply.result reply⟩ }), y) := by
  induction fuel generalizing c x pending with
  | zero => omega
  | succ fuel ih =>
    rcases exec_readableServer E c x with ⟨hzero, hnone⟩ | ⟨s, y, hlt, h0, hp, hsome⟩
    · left
      have hall : pending = fun _ => none := by
        funext s
        rcases Nat.lt_or_ge s c.serverCount with hs | hs
        · have := hzero s hs
          rw [hc] at this
          cases hps : pending s with
          | none => rfl
          | some hits => simp [pendingConn, hps] at this
        · exact hh.bound s hs
      subst hall
      refine ⟨by simp [hitsOf], c.io.result, x, .refl x, ?_⟩
      rw [exec_fetchLoop_none E c x hnone, ← show c.io.conn = fun _ => .idle from hc]
    · obtain ⟨hits, hps⟩ := pending_of_owing hc h0
      rw [exec_fetchLoop_some E c x hsome]
      cases hits with
      | cons reply rest =>
        right
        refine ⟨reply, Function.update pending s (some rest), y, ?_, ?_, hp,
          exec_fetchTurn_hit E _ hc y hps (hh.quiet s _ hps reply (by simp))⟩
        · have := hitsOf_update hlt pending (some rest)
          rw [hps] at this
          exact (List.perm_append_right_iff rest).mp (this.trans List.perm_middle)
        · exact hh.update hlt (fun l hl reply' hr => by
            cases hl
            exact hh.quiet s _ hps reply' (by simp [hr]))
      | nil =>
        have hperm : (hitsOf c.serverCount pending).Perm
            (hitsOf c.serverCount (Function.update pending s none)) := by
          have := hitsOf_update hlt pending none
          rw [hps] at this
          simpa using this
        rw [exec_fetchTurn_end E _ hc y hps]
        rcases ih { c with io := ⟨pendingConn (Function.update pending s none), c.io.result⟩ } y
          (Function.update pending s none) rfl (hh.update hlt (fun l hl => by cases hl))
          (Nat.lt_of_lt_of_le (unread_end hc hlt hps _) (Nat.lt_succ_iff.mp hf)) with
          ⟨he, result, z, hp', hex⟩ | ⟨reply, pending', z, hperm', hpend, hp', hex⟩
        · left
          exact ⟨List.Perm.eq_nil (he ▸ hperm), result, z, hp.trans hp', hex⟩
        · right
          exact ⟨reply, pending', z, hperm.trans hperm', hpend, hp.trans hp', hex⟩

theorem exec_fetchResult_hits (c : Client) (x : σ) (pending : Nat → Option (List Reply))
    (hc : c.io.conn = pendingConn pending) (hh : Pending c.serverCount pending) :
    (hitsOf c.serverCount pending = [] ∧ ∃ result y, E.Picks x y ∧
      memcachedFetchResult.exec E c x =
        (.ok ((none, .notFound), { c with io := ⟨fun _ => .idle, result⟩ }), y)) ∨
    ∃ reply pending' y, (hitsOf c.serverCount pending).Perm (reply :: hitsOf c.serverCount pending') ∧
      Pending c.serverCount pending' ∧ E.Picks x y ∧
      memcachedFetchResult.exec E c x =
        (.ok ((some (Reply.result reply), .success),
          { c with io := ⟨pendingConn pending', Reply.result reply⟩ }), y) :=
  exec_fetchLoop_hits E (Client.unread c + 1) c x pending hc hh (Nat.lt_succ_self _)

/-- What a fetch loop computes: its body, over the hits in the order in which they arrive. -/
theorem exec_fetchEach (body : β → Result → Except Fault β) (m : Nat) (st : β) (c : Client) (x : σ)
    (pending : Nat → Option (List Reply)) (hc : c.io.conn = pendingConn pending)
    (hh : Pending c.serverCount pending) (hm : (hitsOf c.serverCount pending).length ≤ m) :
    ∃ order : List Reply, order.Perm (hitsOf c.serverCount pending) ∧
      ((∃ e y, E.Picks x y ∧ order.foldlM (fun st reply => body st (Reply.result reply)) st = .error e ∧
        (fetchEach body m st).exec E c x = (.error e, y)) ∨
      ∃ st' io y, E.Picks x y ∧ Io.Synced c.serverCount io ∧
        order.foldlM (fun st reply => body st (Reply.result reply)) st = .ok st' ∧
        (fetchEach body m st).exec E c x = (.ok (st', { c with io := io }), y)) := by
  induction m generalizing st c x pending with
  | zero =>
    have hnil := List.eq_nil_of_length_eq_zero (Nat.le_zero.mp hm)
    refine ⟨[], by rw [hnil], Or.inr ⟨st, c.io, x, .refl x, ?_, rfl, rfl⟩⟩
    have := hh.synced c.io.result
    rwa [← hc] at this
  | succ m ih =>
    rcases exec_fetchResult_hits E c x pending hc hh with ⟨hnil, result, y, hp, he⟩ |
      ⟨reply, pending', y, hperm, hpend, hp, he⟩
    · have hempty : hitsOf c.serverCount (fun _ => none) = [] := by simp [hitsOf]
      obtain ⟨order, horder, h⟩ := ih st { c with io := ⟨fun _ => .idle, result⟩ } y (fun _ => none) rfl
        ⟨fun _ _ h => by (cases h), fun _ _ => rfl⟩ (by
          change (hitsOf c.serverCount _).length ≤ m
          simp [hempty])
      refine ⟨order, by rw [hnil, ← hempty]; exact horder, ?_⟩
      rw [fetchEach, Proc.exec_bind_ok E c x he]
      rcases h with ⟨e, z, hp', hfold, hex⟩ | ⟨st', io, z, hp', hsync, hfold, hex⟩
      · exact Or.inl ⟨e, z, hp.trans hp', hfold, hex⟩
      · exact Or.inr ⟨st', io, z, hp.trans hp', hsync, hfold, hex⟩
    · rw [fetchEach, Proc.exec_bind_ok E c x he]
      have hlen := hperm.length_eq
      cases hb : body st (Reply.result reply) with
      | error e =>
        refine ⟨reply :: hitsOf c.serverCount pending', hperm.symm, Or.inl ⟨e, y, hp, ?_, ?_⟩⟩
        · rw [List.foldlM_cons, hb]
          rfl
        · simp only [Proc.exec_bind, hb, Proc.exec_lift_error]
      | ok st1 =>
        obtain ⟨order, horder, h⟩ := ih st1
          { c with io := ⟨pendingConn pending', Reply.result reply⟩ } y pending' rfl hpend (by
            simp only [List.length_cons] at hlen
            change (hitsOf c.serverCount pending').length ≤ m
            omega)
        refine ⟨reply :: order, (horder.cons reply).trans hperm.symm, ?_⟩
        simp only [List.foldlM_cons, hb, ok_bind, Proc.exec_bind, Proc.exec_lift_ok]
        rcases h with ⟨e, z, hp', hfold, hex⟩ | ⟨st', io, z, hp', hsync, hfold, hex⟩
        · exact Or.inl ⟨e, z, hp.trans hp', hfold, hex⟩
        · exact Or.inr ⟨st', io, z, hp.trans hp', hsync, hfold, hex⟩

end OptLrc.Fetch
