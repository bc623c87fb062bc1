import OptLrc.Distance
import OptLrc.Placement

namespace OptLrc.Simulator

open OptLrc.Memory OptLrc.Encoder OptLrc.Distance OptLrc.Placement

/-- The exceptions that the simulators can end with. -/
inductive Raise
  | indexError
  | keyError
  | valueError
  | zeroDivisionError
  deriving DecidableEq, Repr

abbrev Name := List Char

def str (i : Nat) : Name := Nat.toDigits 10 i

/-- `s[i]`. -/
def charAt (s : Name) (i : Nat) : Except Raise Char :=
  match s[i]? with
  | some c => .ok c
  | none => .error .indexError

/-- `int(c)`, for a string of one character. -/
def int (c : Char) : Except Raise Nat :=
  if c.isDigit then .ok (c.toNat - 48) else .error .valueError

/-- `math.floor(a / b)`. -/
def floorDiv (a b : Nat) : Except Raise Nat :=
  if b = 0 then .error .zeroDivisionError else .ok (a / b)

def nodeId (kind : Char) (i : Nat) : Name := kind :: str i

/-- `node_stable`, the list of all blocks. -/
def nodeStable (n k r : Nat) : List Name :=
  let localNode := ceilDiv n (r + 1)
  (List.range k).map (nodeId 'D') ++ (List.range localNode.toNat).map (nodeId 'L') ++
    (List.range (n - localNode - k).toNat).map (nodeId 'G')

/-- The dictionary `dict`, from block to group. -/
abbrev Dict := Name → Option Nat

/-- One turn of the loop that fills `dict`; the simulators read the index of a data block in
different ways. -/
def assignGroup (dataIndex : Name → Except Raise Nat) (k r : Nat) (dict : Dict) (node : Name) :
    Except Raise Dict := do
  let id ← int (← charAt node 1)
  let kind ← charAt node 0
  let dict ← if kind = 'D' then do
      return Function.update dict node (some (← floorDiv (← dataIndex node) r))
    else pure dict
  let dict := if kind = 'L' then Function.update dict node (some id) else dict
  if kind = 'G' then
    return Function.update dict node (some (← floorDiv (id + k) r))
  else return dict

/-- `our_placement` reads up to two digits. -/
def ourDataIndex (node : Name) : Except Raise Nat := do
  if 2 < node.length then
    return (← int (← charAt node 1)) * 10 + (← int (← charAt node 2))
  else int (← charAt node 1)

/-- `random_gen` reads one. -/
def randomDataIndex (node : Name) : Except Raise Nat := do int (← charAt node 1)

def ourDict (n k r : Nat) : Except Raise Dict :=
  (nodeStable n k r).foldlM (assignGroup ourDataIndex k r) (fun _ => none)

def randomDict (n k r : Nat) : Except Raise Dict :=
  (nodeStable n k r).foldlM (assignGroup randomDataIndex k r) (fun _ => none)

/-- `dict[node]`. -/
def lookup (dict : Dict) (node : Name) : Except Raise Nat :=
  match dict node with
  | some id => .ok id
  | none => .error .keyError

/-- `rank_group[dict[each_node]].append(each_node)`. -/
def appendNode (dict : Dict) (groups : List (List Name)) (node : Name) : Except Raise (List (List Name)) := do
  let id ← lookup dict node
  match groups[id]? with
  | some group => return groups.set id (group ++ [node])
  | none => throw .indexError

def rankGroup (dict : Dict) (groupCount : Nat) (nodes : List Name) : Except Raise (List (List Name)) :=
  nodes.foldlM (appendNode dict) (List.replicate groupCount [])

/-- `range(0, stop, step)`. -/
def rangeStep (stop : Nat) (step : Int) : Except Raise (List Nat) :=
  if step = 0 then .error .valueError
  else .ok ((List.range ((stop + step.toNat - 1) / step.toNat)).map (· * step.toNat))

/-- `num_cluster`, which is computed and not used. -/
def numCluster (groupCount : Nat) (eachClusterCount : Int) : Except Raise Int :=
  if eachClusterCount = 0 then .error .zeroDivisionError else .ok (ceilDiv groupCount eachClusterCount)

/-- The racks of `our_placement`. -/
def ourRank (groups : List (List Name)) (r : Nat) (b : Int) : Except Raise (List (List Name)) := do
  let rank ← if r + 1 ≤ b then do
      let eachClusterCount := b / (r + 1)
      let _ ← numCluster groups.length eachClusterCount
      let starts ← rangeStep groups.length eachClusterCount
      pure (starts.map (fun eg => ((groups.drop eg).take eachClusterCount.toNat).flatten))
    else pure []
  if b < r + 1 then
    groups.foldlM (fun rank group => do
      let starts ← rangeStep group.length b
      return rank ++ starts.map (fun eg => (group.drop eg).take b.toNat)) rank
  else return rank

/-- `our_placement` up to its racks. -/
def ourRacks (n k r : Nat) : Except Raise (List (List Name)) := do
  let dict ← ourDict n k r
  let groups ← rankGroup dict (ceilDiv n (r + 1)).toNat (nodeStable n k r)
  ourRank groups r (cal n k r - 1)

/-- What the random generator returns, call by call. -/
structure Draws where
  size : Nat → Nat
  pick : Nat → Nat

/-- `random.randint(lo, hi)`, any value of the inclusive range. -/
def randint (lo hi : Int) (seed : Nat) : Except Raise Int :=
  if hi < lo then .error .valueError else .ok (lo + seed % (hi - lo + 1))

/-- `random.choice(nodes)`, any element. -/
def choice (nodes : List Name) (seed : Nat) : Except Raise Name :=
  match nodes[seed % nodes.length]? with
  | some node => .ok node
  | none => .error .indexError

/-- The variables of the loop of `random_gen`, with the number of choices made so far. -/
structure Generated where
  count : Int
  rank : List (List Name)
  node : List Name
  picks : Nat

def takeNode (draws : Draws) (st : List Name × List Name × Nat) (_ek : Nat) :
    Except Raise (List Name × List Name × Nat) := do
  let nodeRand ← choice st.2.1 (draws.pick st.2.2)
  return (st.1 ++ [nodeRand], st.2.1.erase nodeRand, st.2.2 + 1)

def randomTurn (draws : Draws) (n : Nat) (b : Int) (st : Generated) (i : Nat) : Except Raise Generated := do
  let drawn ← randint 1 (b + 1) (draws.size i)
  let rankNumber := if n < st.count + drawn then n - st.count else drawn
  let (rankI, node, picks) ← (List.range rankNumber.toNat).foldlM (takeNode draws) ([], st.node, st.picks)
  return ⟨st.count + rankNumber, st.rank ++ [rankI], node, picks⟩

/-- The turns `i, i + 1, ..` of `for i in range(n)`, until `count == n`. -/
def randomLoop (draws : Draws) (n : Nat) (b : Int) : Nat → Nat → Generated → Except Raise Generated
  | 0, _, st => .ok st
  | turns + 1, i, st => do
    let st ← randomTurn draws n b st i
    if st.count = n then return st else randomLoop draws n b turns (i + 1) st

/-- `random_gen` up to its racks. -/
def randomRacks (draws : Draws) (n k r : Nat) : Except Raise Generated :=
  randomLoop draws n (cal n k r - 1) n 0 ⟨0, [], nodeStable n k r, 0⟩

/-- `flat`, in exact arithmetic. -/
def flat (n k r : Nat) : Rat × Rat :=
  let last := n % (r + 1)
  let integerLocal := n - last
  let drc : Rat :=
    if ceilDiv n (r + 1) > ceilDiv k r then r
    else if n % (r + 1) = 0 then r
    else ((k - (k % r : Nat)) * r + (k % r : Nat) * ((n % (r + 1) : Nat) - 1)) / k
  (drc, (integerLocal * r + last * (last - 1)) / k)

end OptLrc.Simulator
