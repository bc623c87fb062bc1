import OptLrc.Capacity

namespace OptLrc.Azure

open OptLrc.Memory OptLrc.Distance OptLrc.Layout OptLrc.Placement OptLrc.Simulator OptLrc.Groups OptLrc.Capacity

/-- `math.ceil(a / b)` of two variables. -/
def ceilQuotient (a b : Nat) : Except Raise Nat :=
  if b = 0 then .error .zeroDivisionError else .ok (ceilDiv a b).toNat

/-- `a / b`, in exact arithmetic. -/
def quotient (a b : Nat) : Except Raise Rat :=
  if b = 0 then .error .zeroDivisionError else .ok (a / b)

/-- `node_stable`. -/
def azureStable (n k localNode : Nat) : List Name :=
  (List.range k).map (nodeId 'D') ++ (List.range localNode).map (nodeId 'L') ++
    (List.range (n - localNode - k)).map (nodeId 'G')

/-- One turn of the loop that fills `dict`, after the group of the global parities is known. -/
def assignAzure (localIndex : Name → Except Raise Nat) (r globalGroup : Nat) (dict : Dict) (node : Name) :
    Except Raise Dict := do
  let kind ← charAt node 0
  let dict ← if kind = 'D' then do
      return Function.update dict node (some (← floorDiv (← ourDataIndex node) r))
    else pure dict
  let dict ← if kind = 'L' then do
      return Function.update dict node (some (← localIndex node))
    else pure dict
  if kind = 'G' then return Function.update dict node (some globalGroup) else return dict

/-- `azure_LRC` reads an index first that it does not use, and one digit of a local parity. -/
def assignLRC (r globalGroup : Nat) (dict : Dict) (node : Name) : Except Raise Dict := do
  let _ ← ourDataIndex node
  assignAzure randomDataIndex r globalGroup dict node

/-- `azure_LRC_1` reads up to two digits of a local parity. -/
def assignLRC1 (r globalGroup : Nat) (dict : Dict) (node : Name) : Except Raise Dict :=
  assignAzure ourDataIndex r globalGroup dict node

/-- The racks of one group. `div_group` is computed and not used. -/
def azureGroup (b : Int) (group : List Name) : Except Raise (List (List Name)) :=
  if (group.length : Int) ≤ b then .ok [group]
  else do
    let _ ← numCluster group.length b
    let starts ← rangeStep group.length b
    return starts.map (fun eg => (group.drop eg).take b.toNat)

def azureRank (b : Int) (groups : List (List Name)) : Except Raise (List (List Name)) :=
  groups.foldlM (fun rank group => return rank ++ (← azureGroup b group)) []

/-- The cost loop: the racks other than `item` with a node that `meets` this one. -/
def azureNodeCost (meets : Name → Name → Except Raise Bool) (rank : List (List Name)) (item : List Name)
    (node : Name) : Except Raise Nat :=
  (rank.erase item).foldlM (fun cost other => return if ← other.anyM (meets node) then cost + 1 else cost) 0

def azureCost (meets : Name → Name → Except Raise Bool) (rank : List (List Name)) : Except Raise Dict :=
  rank.foldlM (fun cost item => item.foldlM (fun cost node =>
    return Function.update cost node (some (← azureNodeCost meets rank item node))) cost) (fun _ => none)

/-- `azure_LRC` repairs a global parity from the data. -/
def meetsLRC (dict : Dict) (node other : Name) : Except Raise Bool := do
  if (← charAt node 0) = 'G' then return (← charAt other 0) = 'D'
  else return (← lookup dict other) = (← lookup dict node)

def meetsLRC1 (dict : Dict) (node other : Name) : Except Raise Bool :=
  return (← lookup dict other) = (← lookup dict node)

def costSum (cost : Dict) (counted : Name → Bool) (nodes : List Name) : Except Raise Nat :=
  nodes.foldlM (fun sum node => if counted node then return sum + (← lookup cost node) else return sum) 0

/-- `DRC` and `NRC` of a placement. -/
def placementCost (meets : Name → Name → Except Raise Bool) (k : Nat) (nodes : List Name) (rank : List (List Name)) :
    Except Raise (Rat × Rat) := do
  let cost ← azureCost meets rank
  let drc ← quotient (← costSum cost (fun node => node.head? = some 'D') nodes) k
  let nrc ← quotient (← costSum cost (fun _ => true) nodes) k
  return (drc, nrc)

/-- `azure_LRC`. -/
def azureLRC (n k r : Nat) : Except Raise (Rat × Rat) := do
  let localNode ← ceilQuotient k r
  let nodes := azureStable n k localNode
  let dict ← nodes.foldlM (assignLRC r localNode) (fun _ => none)
  let groups ← rankGroup dict (localNode + 1) nodes
  let rank ← azureRank (n - k - localNode + 1) groups
  placementCost (meetsLRC dict) k nodes rank

/-- `azure_LRC_1`; `none` is its `None, None`. -/
def azureLRC1 (n k r : Nat) : Except Raise (Option (Rat × Rat)) := do
  let groupNumber ← ceilQuotient k r
  if (n : Int) - (groupNumber + 1) - k < 1 then return none
  else
    let nodes := azureStable n k (groupNumber + 1)
    let dict ← nodes.foldlM (assignLRC1 r groupNumber) (fun _ => none)
    let groups ← rankGroup dict (groupNumber + 1) nodes
    let rank ← azureRank (n - k - groupNumber) groups
    return some (← placementCost (meetsLRC1 dict) k nodes rank)

end OptLrc.Azure
