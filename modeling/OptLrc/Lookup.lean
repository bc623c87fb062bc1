import OptLrc.Fetch
import Mathlib.Data.List.Perm.Basic

namespace OptLrc.Lookup

open OptLrc.Galois OptLrc.Memory OptLrc.Jerasure OptLrc.Encoder OptLrc.Process OptLrc.Memcached
open OptLrc.Exchange OptLrc.Retrieval OptLrc.Sync OptLrc.Wire OptLrc.Core OptLrc.Fetch

variable {σ : Type} {E : Env Request Reply σ} {view : σ → World}

/-- The replies to the quiet gets of keys whose items are there. -/
def hitList (w : World) (route : Key → Nat) (keys : List Key) : List Reply :=
  keys.filterMap (fun key => (w (route key) key).map (Reply.hit .getkq key))

def mgetPending (w : World) (route : Key → Nat) (keys : List Key) (s : Nat) : Option (List Reply) :=
  if s ∈ keys.map route then some (hitList w route (keys.filter (fun key => route key = s))) else none

theorem serve_getkq (s : Nat) (key : Key) (w : World) :
    serve s (.getkq key) w = ((w s key).toList.map (Reply.hit .getkq key), w) := by
  cases h : w s key <;> simp [serve, h]

theorem exchange_quiet (hE : Storing E view) (route : Key → Nat) {s : Nat} (keys : List Key)
    (hk : ∀ key ∈ keys, route key = s) (x : σ) :
    (E.exchange s (keys.map .getkq ++ [.noop]) x).1 = hitList (view x) route keys ++ [.ok .noop] ∧
      view (E.exchange s (keys.map .getkq ++ [.noop]) x).2 = view x := by
  induction keys generalizing x with
  | nil => simp [Env.exchange, hE.replies, hE.stores, serve, hitList]
  | cons key keys ih =>
    have hv : view (E.serve s (.getkq key) x).2 = view x := by rw [hE.stores, serve_getkq]
    obtain ⟨h1, h2⟩ := ih (fun key' h => hk key' (by simp [h])) (E.serve s (.getkq key) x).2
    rw [hv] at h1 h2
    have hr : (E.serve s (.getkq key) x).1 = (view x s key).toList.map (Reply.hit .getkq key) := by
      rw [hE.replies, serve_getkq]
    refine ⟨?_, by simpa [Env.exchange] using h2⟩
    simp only [List.map_cons, List.cons_append, Env.exchange, h1, hr, hitList, List.filterMap_cons,
      hk key (by simp)]
    cases view x s key <;> simp

section Mget

variable (hE : Storing E view) (route : Key → Nat) (keys : List Key) (x : σ)
include hE

theorem view_mgetState (count : Nat) : view (mgetState E route keys x count) = view x := by
  induction count with
  | zero => rfl
  | succ count ih =>
    unfold mgetState
    split
    · rw [quiet, (exchange_quiet hE route _ (by simp) _).2, ih]
    · exact ih

theorem mgetConn_eq : mgetConn E route keys x = pendingConn (mgetPending (view x) route keys) := by
  funext s
  unfold mgetConn pendingConn mgetPending
  by_cases h : s ∈ keys.map route
  · simp only [h, if_true, quiet]
    rw [(exchange_quiet hE route _ (by simp) _).1, view_mgetState hE]
  · simp only [h, if_false]

end Mget

theorem pending_mgetPending {w : World} {route : Key → Nat} {keys : List Key} {count : Nat}
    (hlt : ∀ key ∈ keys, route key < count) : Pending count (mgetPending w route keys) := by
  refine ⟨fun s hits h reply hr => ?_, fun s hs => ?_⟩
  · unfold mgetPending at h
    split at h
    · cases h
      obtain ⟨key, -, hkey⟩ := List.mem_filterMap.mp hr
      obtain ⟨item, -, rfl⟩ := Option.map_eq_some_iff.mp hkey
      exact ⟨rfl, rfl⟩
    · cases h
  · unfold mgetPending
    rw [if_neg]
    intro hmem
    obtain ⟨key, hkey, rfl⟩ := List.mem_map.mp hmem
    have := hlt key hkey
    omega

theorem flatMap_range_ite {α : Type} (l : List α) {i count : Nat} (hi : i < count) :
    (List.range count).flatMap (fun s => if i = s then l else []) = l := by
  induction count with
  | zero => omega
  | succ count ih =>
    rw [List.range_succ, List.flatMap_append, List.flatMap_singleton]
    by_cases h : i = count
    · subst h
      have : (List.range i).flatMap (fun s => if i = s then l else []) = [] := by
        rw [List.flatMap_eq_nil_iff]
        intro s hs
        have := List.mem_range.mp hs
        exact if_neg (by omega)
      rw [this, if_pos rfl, List.nil_append]
    · rw [ih (by omega), if_neg h, List.append_nil]

/-- The keys of a multi-get, server by server. -/
theorem flatMap_filter_perm {α : Type} (route : α → Nat) (l : List α) {count : Nat}
    (hlt : ∀ a ∈ l, route a < count) :
    ((List.range count).flatMap (fun s => l.filter (fun a => route a = s))).Perm l := by
  induction l with
  | nil => simp
  | cons a l ih =>
    have hsplit : (List.range count).flatMap (fun s => (a :: l).filter (fun a => route a = s)) =
        (List.range count).flatMap (fun s => (if route a = s then [a] else []) ++
          l.filter (fun a => route a = s)) := by
      refine List.flatMap_congr (fun s _ => ?_)
      by_cases h : route a = s <;> simp [h]
    rw [hsplit]
    refine (List.flatMap_append_perm _ _ _).symm.trans ?_
    rw [flatMap_range_ite _ (hlt a (by simp)), List.singleton_append]
    exact (ih (fun b hb => hlt b (by simp [hb]))).cons a

theorem hitsOf_mgetPending (w : World) {route : Key → Nat} {keys : List Key} {count : Nat}
    (hlt : ∀ key ∈ keys, route key < count) :
    (hitsOf count (mgetPending w route keys)).Perm (hitList w route keys) := by
  have hget : ∀ s, (mgetPending w route keys s).getD [] =
      hitList w route (keys.filter (fun key => route key = s)) := by
    intro s
    unfold mgetPending
    by_cases h : s ∈ keys.map route
    · simp [h]
    · have hnil : keys.filter (fun key => route key = s) = [] := by
        rw [List.filter_eq_nil_iff]
        intro key hkey hs
        exact h (List.mem_map.mpr ⟨key, hkey, by simpa using hs⟩)
      simp [h, hnil, hitList]
  simp only [hitsOf, hget, hitList]
  rw [← List.filterMap_flatMap]
  exact (flatMap_filter_perm route keys hlt).filterMap _

end OptLrc.Lookup
