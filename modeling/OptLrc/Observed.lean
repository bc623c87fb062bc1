import OptLrc.Lookup

namespace OptLrc.Observed

open OptLrc.Memory OptLrc.Encoder OptLrc.Process OptLrc.Memcached OptLrc.Exchange OptLrc.Wire OptLrc.Core
open OptLrc.Jerasure OptLrc.Lookup

variable {σ : Type} {E : Env Request Reply σ} {log : σ → List (Nat × Request)}

/-- The environment keeps the requests in the order in which they arrive. -/
structure Logging (E : Env Request Reply σ) (log : σ → List (Nat × Request)) : Prop where
  serve : ∀ s q x, log (E.serve s q x).2 = log x ++ [(s, q)]
  pick : ∀ s t rest x, log (E.pick s t rest x).2 = log x

def quietKey : Nat × Request → Option (Nat × Key)
  | (s, .getkq key) => some (s, key)
  | _ => none

/-- The quiet gets among some requests, each with its server. -/
def quietKeys (requests : List (Nat × Request)) : List (Nat × Key) := requests.filterMap quietKey

section Log

variable (hlog : Logging E log)
include hlog

theorem quietKeys_serve {s : Nat} {q : Request} (hq : quietKey (s, q) = none) (x : σ) :
    quietKeys (log (E.serve s q x).2) = quietKeys (log x) := by
  simp [quietKeys, hlog.serve, hq]

theorem quietKeys_picks {x y : σ} (h : E.Picks x y) : quietKeys (log y) = quietKeys (log x) :=
  h.preserves (f := fun x => quietKeys (log x)) (fun s t rest x => by simp only [hlog.pick])

theorem quietKeys_coreOnly {core : Nat} {x y : σ} (h : CoreOnly E core x y) :
    quietKeys (log y) = quietKeys (log x) := by
  induction h with
  | refl x => rfl
  | step key value x y h ih =>
    rw [ih, coreState, quietKeys_serve hlog rfl, quietKeys_serve hlog rfl]

theorem quietKeys_exchange (s : Nat) (keys : List Key) (x : σ) :
    quietKeys (log (E.exchange s (keys.map .getkq ++ [.noop]) x).2) =
      quietKeys (log x) ++ keys.map (fun key => (s, key)) := by
  induction keys generalizing x with
  | nil =>
    simp only [List.map_nil, List.nil_append, Env.exchange, List.append_nil]
    exact quietKeys_serve hlog rfl x
  | cons key keys ih =>
    have hcons : quietKeys (log (E.serve s (.getkq key) x).2) = quietKeys (log x) ++ [(s, key)] := by
      simp [quietKeys, hlog.serve, quietKey]
    rw [List.map_cons, List.cons_append, Env.exchange]
    simp only [ih, hcons, List.map_cons, List.append_assoc, List.singleton_append]

/-- A multi-get asks for each of its keys once, at the key's server. -/
theorem quietKeys_mgetState {route : Key → Nat} {keys : List Key} {count : Nat}
    (hroute : ∀ key ∈ keys, route key < count) (x : σ) :
    ∃ asked, quietKeys (log (mgetState E route keys x count)) = quietKeys (log x) ++ asked ∧
      asked.Perm (keys.map (fun key => (route key, key))) := by
  have hrun : ∀ m, quietKeys (log (mgetState E route keys x m)) = quietKeys (log x) ++
      ((List.range m).flatMap (fun s => keys.filter (fun key => route key = s))).map
        (fun key => (route key, key)) := by
    intro m
    induction m with
    | zero => simp [mgetState]
    | succ m ih =>
      have hmap : (keys.filter (fun key => route key = m)).map (fun key => (route key, key)) =
          (keys.filter (fun key => route key = m)).map (fun key => (m, key)) := by
        refine List.map_congr_left (fun key hkey => ?_)
        simp only [List.mem_filter, decide_eq_true_eq] at hkey
        rw [hkey.2]
      rw [List.range_succ, List.flatMap_append, List.flatMap_singleton, List.map_append, hmap,
        ← List.append_assoc, ← ih, mgetState]
      split
      · exact quietKeys_exchange hlog m _ _
      · next h =>
        have hnil := quiet_eq_nil h
        rw [quiet, List.map_eq_nil_iff] at hnil
        rw [hnil, List.map_nil, List.append_nil]
  exact ⟨_, hrun count, (flatMap_filter_perm route keys hroute).map _⟩

end Log

/-- The servers themselves, with the requests that they have seen. -/
def loggingEnv : Env Request Reply (World × List (Nat × Request)) where
  serve s q x := ((serve s q x.1).1, ((serve s q x.1).2, x.2 ++ [(s, q)]))
  pick s _ _ x := (s, x)
  pick_mem s t rest x := by simp

theorem storing_loggingEnv : Storing loggingEnv Prod.fst :=
  ⟨fun _ _ _ => rfl, fun _ _ _ => rfl, fun _ _ _ _ => rfl⟩

theorem logging_loggingEnv : Logging loggingEnv Prod.snd := ⟨fun _ _ _ => rfl, fun _ _ _ _ => rfl⟩

end OptLrc.Observed
