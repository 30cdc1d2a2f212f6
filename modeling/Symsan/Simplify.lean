import Symsan.Ast

/-!
# Boolean skeletons of branch conditions

`strip_zext`, `simplify_land`, `simplify_lor`, `simplify_xor` and `find_roots`:
the walk from a branch label to a boolean skeleton whose leaves are relational
nodes. Every function writes into a node it is handed, so each one takes that
node and returns it updated; `add_children()` appends a fresh child and
`CopyFrom` replaces the node by a copy of another. The debug-only `subroots`
set and the assertions are not modelled; the model continues where a build
without assertions would.
-/

set_option autoImplicit false

namespace Symsan

/-- The loop of `strip_zext` from `current`, at most `fuel` iterations. -/
def stripZextFrom (t : LabelTable) (label : Nat) : Nat → Nat → Nat
  | 0, _ => label
  | fuel + 1, current =>
    if (t current).op = .zExt then
      let inner := (t current).l1
      if (t inner).size = 1 then (t inner).l1 else stripZextFrom t label fuel inner
    else label

/-- `strip_zext`. On a DAG the loop ends within `label + 1` iterations. -/
def stripZext (t : LabelTable) (label : Nat) : Nat := stripZextFrom t label (label + 1) label

/-- What the simplifier returns: whether a relational leaf was produced, the
node written, and the visited labels. -/
abbrev Rooted := Bool × AstNode × List Nat

/-- The unsimplified case shared by the `simplify_*` functions: both operands
are walked into `ret` itself. -/
def findRootsBoth (findRoots : Nat → AstNode → List Nat → Rooted) (rhs lhs : Nat)
    (ret : AstNode) (visited : List Nat) : Rooted :=
  let (r, ret, visited) := findRoots rhs ret visited
  if constOffset ≤ lhs then
    let (r', ret, visited) := findRoots lhs ret visited
    (r || r', ret, visited)
  else (r, ret, visited)

/-- `simplify_land` (`absorb = 0`, `kind = LAnd`) and `simplify_lor`
(`absorb = 1`, `kind = LOr`): `absorb` is the constant that decides the
connective, `1 - absorb` the one it ignores. -/
def simplifyLogic (absorb : Nat) (kind : Kind) (findRoots : Nat → AstNode → List Nat → Rooted)
    (t : LabelTable) (info : LabelInfo) (ret : AstNode) (visited : List Nat) : Rooted :=
  let lhs := if constOffset ≤ info.l1 then stripZext t info.l1 else 0
  let rhs := stripZext t info.l2
  if rhs = info.l2 ∧ lhs = info.l1 ∧ info.size ≠ 1 then findRootsBoth findRoots rhs lhs ret visited
  else
    let (rr, right, visited) := findRoots rhs AstNode.fresh visited
    let ret := { ret with children := ret.children ++ [right] }
    if !rr ∧ right.boolvalue = absorb then
      (false, { ret with kind := .bool, boolvalue := absorb }, visited)
    else if lhs = 0 then
      if info.op1 = absorb then (false, { ret with kind := .bool, boolvalue := absorb }, visited)
      else (rr, right, visited)
    else
      let (lr, left, visited) := findRoots lhs AstNode.fresh visited
      let ret := { ret with children := ret.children ++ [left] }
      if !lr then
        if left.boolvalue = absorb then
          (false, { ret with kind := .bool, boolvalue := absorb }, visited)
        else if !rr then (false, { ret with kind := .bool, boolvalue := 1 - absorb }, visited)
        else (rr, right, visited)
      else (true, { ret with kind, bits := 1 }, visited)

/-- `simplify_land`. -/
def simplifyLand (findRoots : Nat → AstNode → List Nat → Rooted) (t : LabelTable)
    (info : LabelInfo) (ret : AstNode) (visited : List Nat) : Rooted :=
  simplifyLogic 0 .lAnd findRoots t info ret visited

/-- `simplify_lor`. -/
def simplifyLor (findRoots : Nat → AstNode → List Nat → Rooted) (t : LabelTable)
    (info : LabelInfo) (ret : AstNode) (visited : List Nat) : Rooted :=
  simplifyLogic 1 .lOr findRoots t info ret visited

/-- `simplify_xor`: LLVM's encoding of logical not as `xor` with 1. -/
def simplifyXor (findRoots : Nat → AstNode → List Nat → Rooted) (t : LabelTable)
    (info : LabelInfo) (ret : AstNode) (visited : List Nat) : Rooted :=
  let lhs := if constOffset ≤ info.l1 then stripZext t info.l1 else 0
  let rhs := stripZext t info.l2
  if rhs = info.l2 ∧ lhs = info.l1 ∧ info.size ≠ 1 then findRootsBoth findRoots rhs lhs ret visited
  else
    let (rr, right, visited) := findRoots rhs AstNode.fresh visited
    let ret := { ret with children := ret.children ++ [right], bits := 1 }
    if !rr ∧ info.l1 = 0 then
      (false, { ret with kind := .bool, boolvalue := right.boolvalue ^^^ info.op1 % 2 ^ 32 }, visited)
    else
      let ret := if !rr then { ret with kind := .bool } else ret
      if lhs = 0 then
        if info.op1 = 1 then (true, { ret with kind := .lNot }, visited) else (rr, right, visited)
      else
        let (lr, left, visited) := findRoots lhs AstNode.fresh visited
        let ret := { ret with children := ret.children ++ [left] }
        if !lr then
          if left.boolvalue = 0 then (rr, right, visited) else (rr, { ret with kind := .lNot }, visited)
        else (true, { ret with kind := .xor }, visited)

/-- An ICmp eq (`isEq`) or ne of a boolean `operand` against the constant `c`:
the operand itself where the comparison is its identity, else `LNot` of it. -/
def compareBool (isEq : Bool) (c : Nat) (operand ret : AstNode) : AstNode :=
  if (if isEq then c = 1 else c = 0) then operand
  else { ret with kind := .lNot, children := ret.children ++ [operand] }

/-- The tail of `find_roots` for every other operation: walk both operands
into `ret` itself, the second one first. -/
def visitOperands (findRoots : Nat → AstNode → List Nat → Rooted) (info : LabelInfo)
    (ret : AstNode) (visited : List Nat) : Rooted :=
  let (r2, ret, visited) :=
    if constOffset ≤ info.l2 then findRoots info.l2 ret visited else (false, ret, visited)
  let (r1, ret, visited) :=
    if constOffset ≤ info.l1 then findRoots info.l1 ret visited else (false, ret, visited)
  (r2 || r1, ret, visited)

/-- `find_roots`, at most `fuel` nested calls. -/
def findRoots (t : LabelTable) : Nat → Nat → AstNode → List Nat → Rooted
  | 0, _, ret, visited => (false, ret, visited)
  | fuel + 1, label, ret, visited =>
    if label < constOffset ∨ label = kInitializingLabel then (false, ret, visited)
    else if label ∈ visited then (false, ret, visited)
    else
      let visited := visited.insert label
      let info := t label
      let recurse := findRoots t fuel
      if info.op = .input ∨ info.op = .load then (false, ret, visited)
      else if info.op = .and then simplifyLand recurse t info ret visited
      else if info.op = .or then simplifyLor recurse t info ret visited
      else if info.op = .xor then simplifyXor recurse t info ret visited
      else match info.op with
        | .icmp pred =>
          let (lr, left, visited) :=
            if constOffset ≤ info.l1 then recurse (stripZext t info.l1) AstNode.fresh visited
            else (false, AstNode.fresh, visited)
          let (rr, right, visited) :=
            if constOffset ≤ info.l2 then recurse (stripZext t info.l2) AstNode.fresh visited
            else (false, AstNode.fresh, visited)
          if lr then
            if info.l2 = 0 then
              visitOperands recurse info (compareBool (pred = .bveq) info.op2 left ret) visited
            else (false, { ret with kind := .bool, boolvalue := 0 }, visited)
          else if rr then
            if info.l1 = 0 then
              visitOperands recurse info (compareBool (pred = .bveq) info.op1 right ret) visited
            else (false, { ret with kind := .bool, boolvalue := 0 }, visited)
          else (true, { ret with bits := 1, kind := (opMap info.op).getD .bool, label }, visited)
        | _ => visitOperands recurse info ret visited

end Symsan
