import OptLrc.Rack
import Mathlib.Data.List.Forall2

namespace OptLrc.RackFile

open OptLrc.Galois OptLrc.Memory OptLrc.Memcached OptLrc.Rack

/-- A host and its port, as they stand in the file. -/
structure Listed where
  host : Word
  port : Word

/-- The rack file: the core, the rack of each block, and the servers of each rack behind their
number. -/
structure File where
  core : Listed
  ids : List Word
  racks : List (Word × List Listed)

def atMark : Word := [Byte.ofNat 64]

def rackMark : Word := [Byte.ofNat 35]

def Listed.words (l : Listed) : List Word := [l.host, l.port]

def rackWords (rack : Word × List Listed) : List Word :=
  rackMark :: rack.1 :: rack.2.flatMap Listed.words

def File.words (f : File) : List Word :=
  f.core.words ++ atMark :: f.ids ++ f.racks.flatMap rackWords

/-- The words name server `s` of the client, and no other. -/
structure Names (hosts : List Host) (l : Listed) (s : Nat) : Prop where
  named : ∃ port, l.port.number? = some port ∧ hosts[s]? = some ⟨l.host, port⟩ ∧
    ∀ t, hosts[t]? = some ⟨l.host, port⟩ → t = s

/-- What the file says: the server of the core, the rack ids, and the servers of each rack. -/
structure Denotes (hosts : List Host) (f : File) (core : Nat) (ids : List Nat) (groups : List (List Nat)) :
    Prop where
  core : Names hosts f.core core
  ids : List.Forall₂ (fun w id => Word.number? w = some id) f.ids ids
  racks : List.Forall₂ (fun (rack : Word × List Listed) g =>
    rack.1.number? = some rack.2.length ∧ List.Forall₂ (Names hosts) rack.2 g) f.racks groups

/-- A file that places `n` blocks on the servers of a client. -/
structure WellFormed (c : Client) (f : File) (core : Nat) (ids : List Nat) (groups : List (List Nat)) : Prop where
  words : c.rackFile = f.words
  denotes : Denotes c.hosts f core ids groups
  ids_length : ids.length = c.numberOfN
  small : c.numberOfN ≤ maxNodes
  racks : groups.length ≤ maxNodes
  id_lt : ∀ id ∈ ids, id < groups.length
  nonempty : ∀ g ∈ groups, g ≠ []
  nodup : groups.flatten.Nodup
  room : ∀ j g, groups[j]? = some g → ids.count j ≤ g.length
  hostname : ∀ h ∈ c.hosts, h.hostname.head? ≠ some (Byte.ofNat 64) ∧ h.hostname.head? ≠ some (Byte.ofNat 35)
  node2rack : c.node2rack.length = maxNodes
  nodeRack : c.nodeRack.length = maxNodes
  notAdded : c.rackIsAdd = false

/-- Every host fits the buffers of `add_rack`. -/
def Short (f : File) : Prop :=
  f.core.host.length < maxNodes ∧ ∀ rack ∈ f.racks, ∀ l ∈ rack.2, l.host.length < maxNodes

instance (f : File) : Decidable (Short f) := inferInstanceAs (Decidable (_ ∧ _))

section Loop

variable {st st' st'' : Scan} {e : Fault}

/-- Turns of the loop, each of which reads a word. -/
inductive Turns : Scan → Scan → Prop
  | refl (st : Scan) : Turns st st
  | step {st st' st'' : Scan} (h : scanTurn st = .ok st') (hlt : st'.words.length < st.words.length)
    (rest : Turns st' st'') : Turns st st''

theorem Turns.trans (h : Turns st st') (h' : Turns st' st'') : Turns st st'' := by
  induction h with
  | refl st => exact h'
  | step h hlt rest ih => exact .step h hlt (ih h')

theorem scanLoop_of_turns (h : Turns st st') (hend : st'.words = []) {fuel : Nat}
    (hf : st.words.length ≤ fuel) : scanLoop fuel st = .ok st' := by
  induction h generalizing fuel with
  | refl st =>
    cases fuel with
    | zero => rfl
    | succ fuel => rw [scanLoop, if_pos hend]
  | step h hlt rest ih =>
    obtain ⟨fuel, rfl⟩ : ∃ fuel', fuel = fuel' + 1 := ⟨fuel - 1, by omega⟩
    rw [scanLoop, if_neg (by rintro h0; simp [h0] at hlt), h]
    exact ih hend (by omega)

/-- The loop runs into a fault. -/
def Crashes (st : Scan) (e : Fault) : Prop :=
  ∃ st', Turns st st' ∧ st'.words ≠ [] ∧ scanTurn st' = .error e

theorem Turns.crashes (h : Turns st st') (h' : Crashes st' e) : Crashes st e := by
  obtain ⟨st'', hrest, hne, he⟩ := h'
  exact ⟨st'', h.trans hrest, hne, he⟩

theorem scanLoop_of_crashes (h : Crashes st e) {fuel : Nat} (hf : st.words.length ≤ fuel) :
    scanLoop fuel st = .error e := by
  obtain ⟨st', hrest, hne, he⟩ := h
  induction hrest generalizing fuel with
  | refl st =>
    have hpos : 0 < st.words.length := List.length_pos_iff.mpr hne
    obtain ⟨fuel, rfl⟩ : ∃ fuel', fuel = fuel' + 1 := ⟨fuel - 1, by omega⟩
    rw [scanLoop, if_neg hne, he]
    rfl
  | step h hlt rest ih =>
    obtain ⟨fuel, rfl⟩ : ∃ fuel', fuel = fuel' + 1 := ⟨fuel - 1, by omega⟩
    rw [scanLoop, if_neg (by rintro h0; simp [h0] at hlt), h]
    exact ih (by omega) hne he

end Loop

section Search

variable {hosts : List Host} {l : Listed} {s : Nat}

theorem find?_eq_of_unique {α : Type} {p : α → Bool} {as : List α} {a : α} (ha : a ∈ as) (hp : p a = true)
    (hu : ∀ b, p b = true → b = a) : as.find? p = some a := by
  cases h : as.find? p with
  | none => exact absurd hp (List.find?_eq_none.mp h a ha)
  | some b => rw [hu b (List.find?_some h)]

/-- The port of a listed server is a number, and the searches find the server. -/
theorem Names.found (h : Names hosts l s) : ∃ port, l.port.number? = some port ∧
    findServer hosts l.host port = some s ∧ findCore hosts l.host port = some s := by
  obtain ⟨port, hnum, hs, hu⟩ := h.named
  have hlt : s < hosts.length := (List.getElem?_eq_some_iff.mp hs).1
  have hunique : ∀ t, decide (hosts[t]? = some ⟨l.host, port⟩) = true → t = s :=
    fun t ht => hu t (of_decide_eq_true ht)
  refine ⟨port, hnum, ?_, ?_⟩
  · exact find?_eq_of_unique (List.mem_range.mpr hlt) (decide_eq_true hs) hunique
  · exact find?_eq_of_unique (List.mem_reverse.mpr (List.mem_range.mpr hlt)) (decide_eq_true hs) hunique

theorem Names.host_mem (h : Names hosts l s) : ∃ host ∈ hosts, host.hostname = l.host := by
  obtain ⟨port, -, hs, -⟩ := h.named
  exact ⟨_, List.mem_of_getElem? hs, rfl⟩

theorem findServer_none (host : Word) (port : Nat) (h : ∀ a ∈ hosts, a.hostname ≠ host) :
    findServer hosts host port = none := by
  refine List.find?_eq_none.mpr (fun t _ ht => ?_)
  exact h _ (List.mem_of_getElem? (of_decide_eq_true ht)) rfl

end Search

section Scanning

variable {c : Client} {st : Scan} {words rest : List Word} {racks nodeCount : Nat} {group : Cells (Cells RackServer)}

/-- The state of `add_rack`, but for the words and numbers that it read last. -/
structure At (c : Client) (words : List Word) (racks nodeCount : Nat) (group : Cells (Cells RackServer))
    (st : Scan) : Prop where
  words : st.words = words
  racks : st.racks = racks
  nodeCount : st.nodeCount = nodeCount
  client : st.client = { c with rackGroup := group }

theorem scanNumber_some {w : Word} {v : Nat} (h : w.number? = some v) (old : Nat) :
    scanNumber (w :: rest) old = (v, rest) := by
  simp [scanNumber, h]

theorem scanNumber_mark (old : Nat) : scanNumber (rackMark :: rest) old = (old, rackMark :: rest) := by
  have h : rackMark.number? = none := by decide
  simp [scanNumber, h]

theorem scanWord_short {w : Word} (h : w.length < maxNodes) (old : Word) :
    scanWord (w :: rest) old = .ok (w, rest) := by
  simp [scanWord, h]

/-- A `#` opens the next rack. -/
theorem rack_turn {count : Word} {m : Nat} (h : At c (rackMark :: count :: rest) racks nodeCount group st)
    (hm : count.number? = some m) (hr : racks < group.length) :
    ∃ st', scanTurn st = .ok st' ∧ At c rest (racks + 1) m (group.set racks (some [none])) st' := by
  have hword : scanWord (rackMark :: count :: rest) st.data = .ok (rackMark, count :: rest) :=
    scanWord_short (by decide) _
  have hrack : rackMark.head? = some (Byte.ofNat 35) := rfl
  refine ⟨{ st with words := rest, data := rackMark, nodeCount := m, racks := racks + 1, client := _ }, ?_,
    ⟨rfl, rfl, rfl, rfl⟩⟩
  simp only [scanTurn, h.words, hword, ok_bind, pure_eq_ok, hrack, if_true, scanNumber_some hm, h.client, h.racks,
    Cells.write_eq _ hr]
  exact if_neg (by decide)

/-- The list of servers of a rack, none of them in use. -/
def freeCells (keys : List Nat) : Cells RackServer := keys.map (fun s => some ⟨s, false⟩)

/-- A host and a port fill the last node of the current rack. -/
theorem server_turn {l : Listed} {s j m : Nat} {filled : List Nat}
    (h : At c (l.words ++ rest) (j + 1) (m + 1) group st) (hl : Names c.hosts l s) (hshort : l.host.length < maxNodes)
    (hname : ∀ a ∈ c.hosts, a.hostname.head? ≠ some (Byte.ofNat 64) ∧ a.hostname.head? ≠ some (Byte.ofNat 35))
    (hj : group[j]? = some (some (freeCells filled ++ [none]))) :
    ∃ st', scanTurn st = .ok st' ∧ At c rest (j + 1) m
      (group.set j (some (freeCells (filled ++ [s]) ++ if m = 0 then [] else [none]))) st' := by
  obtain ⟨port, hport, hfind, -⟩ := hl.found
  obtain ⟨a, ha, hhost⟩ := hl.host_mem
  obtain ⟨hat, hrack⟩ := hname a ha
  rw [hhost] at hat hrack
  have hword : scanWord (l.words ++ rest) st.data = .ok (l.host, l.port :: rest) := scanWord_short hshort _
  have hlt : j < group.length := (List.getElem?_eq_some_iff.mp hj).1
  have hpush : pushServer (freeCells filled ++ [none]) (m + 1) s =
      .ok (freeCells (filled ++ [s]) ++ if m = 0 then [] else [none]) := by
    simp only [pushServer, List.reverse_append, List.reverse_singleton, List.singleton_append, List.reverse_reverse,
      freeCells, List.map_append, List.map_cons, List.map_nil, Nat.add_eq_right]
  refine ⟨{ st with words := rest, data := l.host, host := port, nodeCount := m, racks := j + 1, client := _ }, ?_,
    ⟨rfl, rfl, rfl, rfl⟩⟩
  simp only [scanTurn, h.words, hword, ok_bind, hat, if_false, pure_eq_ok, hrack, scanNumber_some hport,
    h.client, hfind, h.racks, Nat.add_eq_zero_iff, one_ne_zero, and_false, Nat.add_sub_cancel, Cells.read_eq hj,
    h.nodeCount, hpush, Cells.write_eq _ hlt]

/-- A host that does not fit the buffer. -/
theorem long_turn {l : Listed} (h : st.words = l.words ++ rest) (hlong : ¬ l.host.length < maxNodes) :
    scanTurn st = .error .outOfBounds := by
  have hword : scanWord (l.words ++ rest) st.data = .error .outOfBounds := by
    simp [Listed.words, scanWord, hlong]
  rw [scanTurn, h, hword]
  rfl

/-- `rack_group` with its first racks complete. -/
def openedGroup (done : List (List Nat)) : Cells (Cells RackServer) :=
  done.map (fun g => some (freeCells g)) ++ Cells.new (maxNodes - done.length)

theorem openedGroup_snoc {done : List (List Nat)} (hd : done.length < maxNodes) (g : List Nat) :
    ((openedGroup done).set done.length (some [none])).set done.length (some (freeCells g)) =
      openedGroup (done ++ [g]) := by
  obtain ⟨m, hm⟩ : ∃ m, maxNodes - done.length = m + 1 := ⟨maxNodes - done.length - 1, by omega⟩
  have hm' : maxNodes - (done.length + 1) = m := by omega
  rw [List.set_set]
  simp only [openedGroup, hm, Cells.new, List.replicate_succ, List.map_append, List.map_cons, List.map_nil,
    List.length_append, List.length_singleton, hm']
  rw [List.set_append_right _ _ (by simp)]
  simp

variable {done : List (List Nat)} {servers : List Listed} {g filled : List Nat} {j : Nat}
  (hname : ∀ a ∈ c.hosts, a.hostname.head? ≠ some (Byte.ofNat 64) ∧ a.hostname.head? ≠ some (Byte.ofNat 35))
include hname

/-- The servers of a rack: they are all read, or one of them does not fit. -/
theorem servers_turns (hg : List.Forall₂ (Names c.hosts) servers g) (hne : g ≠ [])
    (h : At c (servers.flatMap Listed.words ++ rest) (j + 1) g.length group st)
    (hj : group[j]? = some (some (freeCells filled ++ [none]))) :
    ((∀ l ∈ servers, l.host.length < maxNodes) → ∃ st', Turns st st' ∧
      At c rest (j + 1) 0 (group.set j (some (freeCells (filled ++ g)))) st') ∧
    ((¬ ∀ l ∈ servers, l.host.length < maxNodes) → Crashes st .outOfBounds) := by
  induction hg generalizing st group filled with
  | nil => exact absurd rfl hne
  | @cons l s servers g hl hg ih =>
    have hwords : st.words = l.words ++ (servers.flatMap Listed.words ++ rest) := by
      rw [h.words, List.flatMap_cons, List.append_assoc]
    by_cases hshort : l.host.length < maxNodes
    · obtain ⟨st1, hturn, hat⟩ := server_turn (m := g.length) ⟨hwords, h.racks, h.nodeCount, h.client⟩ hl hshort
        hname hj
      have hlt : st1.words.length < st.words.length := by
        rw [hat.words, hwords]
        simp [Listed.words]
      cases hg with
      | nil =>
        refine ⟨fun _ => ⟨st1, .step hturn hlt (.refl st1), ?_⟩, fun hlong => absurd ?_ hlong⟩
        · simpa using hat
        · simpa using hshort
      | @cons l' s' servers g hl' hg =>
        rw [if_neg (by simp)] at hat
        have hlt' : j < group.length := (List.getElem?_eq_some_iff.mp hj).1
        obtain ⟨hok, hcrash⟩ := ih (by simp) hat (List.getElem?_set_self hlt')
        constructor
        · intro hall
          obtain ⟨st', hturns, hat'⟩ := hok (fun l hl => hall l (by simp [hl]))
          refine ⟨st', .step hturn hlt hturns, ?_⟩
          rw [List.set_set, List.append_assoc] at hat'
          exact hat'
        · intro hlong
          refine (Turns.step hturn hlt (.refl st1)).crashes (hcrash (fun hall => hlong (fun l hl => ?_)))
          rcases List.mem_cons.mp hl with rfl | hl
          · exact hshort
          · exact hall l hl
    · constructor
      · intro hall
        exact absurd (hall l (by simp)) hshort
      · intro _
        refine ⟨st, .refl st, ?_, long_turn hwords hshort⟩
        rw [hwords]
        simp [Listed.words]

/-- The racks of the file: they are all read, or one of their hosts does not fit. -/
theorem racks_turns {file : List (Word × List Listed)} {groups : List (List Nat)}
    (hracks : List.Forall₂ (fun (rack : Word × List Listed) g =>
      rack.1.number? = some rack.2.length ∧ List.Forall₂ (Names c.hosts) rack.2 g) file groups)
    (hne : ∀ g ∈ groups, g ≠ []) (hlen : done.length + groups.length ≤ maxNodes)
    (h : At c (file.flatMap rackWords) done.length nodeCount (openedGroup done) st) :
    ((∀ rack ∈ file, ∀ l ∈ rack.2, l.host.length < maxNodes) → ∃ st' count, Turns st st' ∧
      At c [] (done ++ groups).length count (openedGroup (done ++ groups)) st') ∧
    ((¬ ∀ rack ∈ file, ∀ l ∈ rack.2, l.host.length < maxNodes) → Crashes st .outOfBounds) := by
  induction hracks generalizing st done nodeCount with
  | nil =>
    refine ⟨fun _ => ⟨st, nodeCount, .refl st, ?_⟩, fun hlong => absurd (by simp) hlong⟩
    rw [List.append_nil]
    exact h
  | @cons rack g file groups hrack hracks ih =>
    obtain ⟨hcount, hg⟩ := hrack
    have hd : done.length < maxNodes := by
      rw [List.length_cons] at hlen
      omega
    have hwords : st.words = rackMark :: rack.1 :: (rack.2.flatMap Listed.words ++ file.flatMap rackWords) := by
      rw [h.words, List.flatMap_cons]
      rfl
    have hopen : done.length < (openedGroup done).length := by
      simp only [openedGroup, List.length_append, List.length_map, Cells.length_new]
      omega
    obtain ⟨st1, hturn, hat⟩ := rack_turn ⟨hwords, h.racks, h.nodeCount, h.client⟩ hcount hopen
    have hlt : st1.words.length < st.words.length := by
      rw [hat.words, hwords]
      simp
    have hstep : Turns st st1 := .step hturn hlt (.refl st1)
    rw [hg.length_eq] at hat
    have hfirst : ((openedGroup done).set done.length (some [none]))[done.length]? =
        some (some (freeCells [] ++ [none])) := List.getElem?_set_self hopen
    obtain ⟨hok, hcrash⟩ := servers_turns hname hg (hne g (by simp)) hat hfirst
    by_cases hshort : ∀ l ∈ rack.2, l.host.length < maxNodes
    · obtain ⟨st2, hturns, hat2⟩ := hok hshort
      have hdone : (done ++ [g]).length = done.length + 1 := by simp
      rw [List.nil_append, openedGroup_snoc hd g, ← hdone] at hat2
      obtain ⟨hok', hcrash'⟩ := ih (fun g hg => hne g (by simp [hg])) (by
        rw [List.length_cons] at hlen
        omega) hat2
      constructor
      · intro hall
        obtain ⟨st', count, hturns', hat'⟩ := hok' (fun rack hr => hall rack (by simp [hr]))
        refine ⟨st', count, hstep.trans (hturns.trans hturns'), ?_⟩
        rw [List.append_assoc] at hat'
        exact hat'
      · intro hlong
        refine (hstep.trans hturns).crashes (hcrash' (fun hall => hlong (fun rack' hr => ?_)))
        rcases List.mem_cons.mp hr with rfl | hr
        · exact hshort
        · exact hall rack' hr
    · refine ⟨fun hall => absurd (hall rack (by simp)) hshort, fun _ => ?_⟩
      exact hstep.crashes (hcrash hshort)

end Scanning

section Ids

/-- An array whose first `m` cells have been written. -/
def overwrite {α : Type} (new old : List α) (m : Nat) : List α := new.take m ++ old.drop m

variable {α : Type} {new old : List α} {m : Nat}

theorem overwrite_zero : overwrite new old 0 = old := by
  simp [overwrite]

theorem length_overwrite (hm : m ≤ new.length) (hlen : new.length ≤ old.length) :
    (overwrite new old m).length = old.length := by
  simp only [overwrite, List.length_append, List.length_take, List.length_drop]
  omega

theorem set_overwrite {a : α} (ha : new[m]? = some a) (hlen : new.length ≤ old.length) :
    (overwrite new old m).set m a = overwrite new old (m + 1) := by
  obtain ⟨hm, rfl⟩ := List.getElem?_eq_some_iff.mp ha
  have htake : (new.take m).length = m := by
    rw [List.length_take]
    omega
  rw [overwrite, overwrite, List.take_add_one, List.getElem?_eq_getElem hm, Option.toList_some,
    List.set_append_right _ _ htake.le, htake, Nat.sub_self, List.append_assoc]
  congr 1
  rw [List.drop_eq_getElem_cons (by omega : m < old.length)]
  rfl

theorem getElem?_overwrite_lt {i : Nat} (hi : i < m) (hm : m ≤ new.length) : (overwrite new old m)[i]? = new[i]? := by
  rw [overwrite, List.getElem?_append_left (by rw [List.length_take]; omega), List.getElem?_take_of_lt hi]

theorem getElem?_overwrite_ge {i : Nat} (hi : m ≤ i) (hm : m ≤ new.length) : (overwrite new old m)[i]? = old[i]? := by
  have htake : (new.take m).length = m := by
    rw [List.length_take]
    omega
  rw [overwrite, List.getElem?_append_right (by omega), htake, List.getElem?_drop]
  congr 1
  omega

/-- The ids of the `@` line go to the front of `node2rack`. -/
theorem scanIds_eq {words rest : List Word} {ids : List Nat}
    (hids : List.Forall₂ (fun w id => Word.number? w = some id) words ids) {st : Scan}
    (hwords : st.words = words ++ rest) (hlen : ids.length ≤ st.client.node2rack.length) :
    ∃ nodeId, (List.range ids.length).foldlM scanIds st = .ok { st with
      words := rest, nodeId := nodeId, client := { st.client with
        node2rack := overwrite (ids.map some) st.client.node2rack ids.length } } := by
  have hrun : ∀ m ≤ ids.length, ∃ nodeId, (List.range m).foldlM scanIds st = .ok { st with
      words := words.drop m ++ rest, nodeId := nodeId, client := { st.client with
        node2rack := overwrite (ids.map some) st.client.node2rack m } } := by
    intro m
    induction m with
    | zero =>
      intro _
      refine ⟨st.nodeId, ?_⟩
      rw [overwrite_zero, List.drop_zero, ← hwords]
      rfl
    | succ m ih =>
      intro hm
      obtain ⟨nodeId, he⟩ := ih (by omega)
      have hmw : m < words.length := by
        rw [hids.length_eq]
        omega
      have hnum : Word.number? words[m] = some ids[m] := hids.get hmw (by omega)
      refine ⟨ids[m], ?_⟩
      rw [List.range_succ, List.foldlM_append, he, ok_bind, List.foldlM_cons]
      have hbound : m < (overwrite (ids.map some) st.client.node2rack m).length := by
        rw [length_overwrite (by simp; omega) (by simpa using hlen)]
        omega
      simp only [scanIds, List.drop_eq_getElem_cons hmw, List.cons_append, scanNumber_some hnum,
        Cells.write_eq _ hbound, ok_bind, pure_eq_ok, List.foldlM_nil]
      rw [set_overwrite (by simp) (by simpa using hlen)]
  obtain ⟨nodeId, he⟩ := hrun ids.length le_rfl
  refine ⟨nodeId, ?_⟩
  rw [he, ← hids.length_eq, List.drop_length, List.nil_append]

end Ids

/-- The `@` line; the number that is read behind it is not there. -/
theorem ids_turn {c : Client} {words rest : List Word} {ids : List Nat} {racks nodeCount : Nat}
    {group : Cells (Cells RackServer)} {st : Scan}
    (hids : List.Forall₂ (fun w id => Word.number? w = some id) words ids)
    (h : At c (atMark :: words ++ rest) racks nodeCount group st) (hn : ids.length = c.numberOfN)
    (hlen : ids.length ≤ c.node2rack.length) (hrest : rest = [] ∨ rest.head? = some rackMark)
    (hname : ∀ a ∈ c.hosts, a.hostname.head? ≠ some (Byte.ofNat 64)) :
    ∃ st', scanTurn st = .ok st' ∧ At { c with node2rack := overwrite (ids.map some) c.node2rack ids.length } rest
      racks nodeCount group st' := by
  have hword : scanWord (atMark :: words ++ rest) st.data = .ok (atMark, words ++ rest) :=
    scanWord_short (by decide) _
  have hat : atMark.head? = some (Byte.ofNat 64) := rfl
  have hnumber : ∀ old, scanNumber rest old = (old, rest) := by
    intro old
    cases rest with
    | nil => rfl
    | cons w rest =>
      have hw : w = rackMark := by simpa using hrest
      rw [hw, scanNumber_mark]
  have hfind : ∀ port, findServer c.hosts atMark port = none :=
    fun port => findServer_none atMark port (fun a ha he => hname a ha (by rw [he]; rfl))
  have hwords : ({ st with data := atMark, words := words ++ rest, client := { c with rackGroup := group } } :
    Scan).words = words ++ rest := rfl
  obtain ⟨nodeId, hscan⟩ := scanIds_eq hids hwords hlen
  refine ⟨{ st with words := rest, data := atMark, nodeId := nodeId, client := { c with
    node2rack := overwrite (ids.map some) c.node2rack ids.length, rackGroup := group } }, ?_,
    ⟨rfl, h.racks, h.nodeCount, rfl⟩⟩
  rw [hn] at hscan ⊢
  simp only [scanTurn, h.words, hword, ok_bind, hat, if_true, h.client, hscan, hnumber, hfind, pure_eq_ok]
  exact if_neg (by decide)

section Adding

variable {c : Client} {f : File} {core : Nat} {ids : List Nat} {groups : List (List Nat)}

/-- The client behind `add_rack`: the rack ids stand where the servers will be. -/
def racksAdded (c : Client) (core : Nat) (ids : List Nat) (groups : List (List Nat)) : Client :=
  { c with networkCoreServerKey := core, rackIsAdd := true, rackGroup := openedGroup groups,
           node2rack := overwrite (ids.map some) c.node2rack ids.length }

theorem WellFormed.addRack (h : WellFormed c f core ids groups) :
    (Short f → addRack c = .ok (racksAdded c core ids groups)) ∧ (¬ Short f → addRack c = .error .outOfBounds) := by
  obtain ⟨port, hport, -, hcore⟩ := h.denotes.core.found
  have hfile : c.rackFile = f.core.host :: f.core.port :: (atMark :: f.ids ++ f.racks.flatMap rackWords) := by
    rw [h.words, File.words]
    simp [Listed.words]
  by_cases hshort : f.core.host.length < maxNodes
  · have hword : scanWord c.rackFile [] =
        .ok (f.core.host, f.core.port :: (atMark :: f.ids ++ f.racks.flatMap rackWords)) := by
      rw [hfile, scanWord_short hshort]
    have hstart : At { c with networkCoreServerKey := core } (atMark :: f.ids ++ f.racks.flatMap rackWords) 0 0
        (openedGroup []) ⟨atMark :: f.ids ++ f.racks.flatMap rackWords, [], 0, 0, 0, 0,
          { c with networkCoreServerKey := core, rackGroup := Cells.new maxNodes }⟩ := ⟨rfl, rfl, rfl, rfl⟩
    have hlen : ids.length ≤ c.node2rack.length := by
      rw [h.ids_length, h.node2rack]
      exact h.small
    have hrest : f.racks.flatMap rackWords = [] ∨ (f.racks.flatMap rackWords).head? = some rackMark := by
      cases f.racks with
      | nil => exact Or.inl rfl
      | cons rack racks => exact Or.inr rfl
    obtain ⟨st1, hturn, hat⟩ := ids_turn h.denotes.ids hstart h.ids_length hlen hrest (fun a ha => (h.hostname a ha).1)
    have hids : Turns _ st1 := .step hturn (by rw [hat.words]; simp) (.refl st1)
    have hgroups : ([] : List (List Nat)).length + groups.length ≤ maxNodes := by simpa using h.racks
    obtain ⟨hok, hcrash⟩ := racks_turns (c := { c with
      networkCoreServerKey := core, node2rack := overwrite (ids.map some) c.node2rack ids.length }) h.hostname
      h.denotes.racks h.nonempty hgroups hat
    have hadd : ∀ r, scanLoop (atMark :: f.ids ++ f.racks.flatMap rackWords).length
        ⟨atMark :: f.ids ++ f.racks.flatMap rackWords, [], 0, 0, 0, 0,
          { c with networkCoreServerKey := core, rackGroup := Cells.new maxNodes }⟩ = r →
        Rack.addRack c = r >>= fun st => .ok { st.client with rackIsAdd := true } := by
      rintro r rfl
      simp only [Rack.addRack, hword, ok_bind, scanNumber_some hport, hcore, Option.getD_some, pure_eq_ok]
    constructor
    · intro hall
      obtain ⟨st', count, hturns, hat'⟩ := hok hall.2
      rw [hadd _ (scanLoop_of_turns (hids.trans hturns) hat'.words le_rfl), ok_bind, hat'.client]
      rfl
    · intro hlong
      have hracks : ¬ ∀ rack ∈ f.racks, ∀ l ∈ rack.2, l.host.length < maxNodes := fun hall => hlong ⟨hshort, hall⟩
      rw [hadd _ (scanLoop_of_crashes (hids.crashes (hcrash hracks)) le_rfl)]
      rfl
  · refine ⟨fun hall => absurd hall.1 hshort, fun _ => ?_⟩
    have hword : scanWord c.rackFile [] = .error .outOfBounds := by
      rw [hfile, scanWord, if_neg hshort]
    simp only [Rack.addRack, hword, error_bind]

end Adding

end OptLrc.RackFile
