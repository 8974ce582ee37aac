import FlowGraph.Walk
import FlowGraph.Work

/-! Jump threading. A block that starts with a jump is a trampoline: a reference to it can go
straight to where the jump leads, and the trampoline is eliminated. Chains of trampolines
collapse at once, because the jump of a trampoline is threaded before it is followed. A
trampoline whose phi nodes cannot be folded into the destination stays, and so does a jump of
a block to itself. -/

namespace FlowGraph

/-- The state of a pass: beside the graph and the counters, the blocks that it eliminated. -/
structure Threading extends Work where
  removed : List BlockRef := []
deriving DecidableEq, Repr, Inhabited

/-- Whoever runs a pass may listen to it. -/
class Listener (m : Type → Type) where
  /-- The eliminated block `b` leads to `dest` by now. -/
  resolved (b dest : BlockRef) : m Unit
  /-- The block `dest` takes the place of a reference to `b`. -/
  threaded (b dest : BlockRef) : m Unit

namespace Threading

/-- Where the jump `jmp` at the head of block `b` leads. -/
def target (fn : Func) (b : BlockRef) (jmp : OpRef) : Except Fault BlockRef :=
  match fn.op jmp with
  | .jump (some t) => .ok t
  | _ => .error (.jumpWithoutTarget (fn.block b).id)

/-- Follows the jumps of eliminated blocks from `dest`, at most `steps` times. -/
def resolveFrom (fn : Func) (removed : List BlockRef) : (steps : Nat) → BlockRef →
    Except Fault BlockRef
  | 0, dest => .ok dest
  | steps + 1, dest =>
    if dest ∈ removed then
      match fn.leadingJump dest with
      | none => .error (.eliminatedWithoutJump (fn.block dest).id)
      | some jmp => do resolveFrom fn removed steps (← target fn dest jmp)
    else .ok dest

/-- Where an eliminated block leads by now. -/
def resolve (fn : Func) (removed : List BlockRef) (b : BlockRef) (jmp : OpRef) :
    Except Fault BlockRef := do
  resolveFrom fn removed removed.length (← target fn b jmp)

/-- Puts the operands of a phi node in the place of its result in a consumer of it. -/
def mergeInto (fn : Func) (p consumer : PhiRef) : Func :=
  let fn := fn.modifyPhi consumer fun f => f.removeOperand (fn.phi p).result
  fn.modifyPhi consumer fun f => f.addOperands (fn.phi p).operands

/-- Folds the phi nodes of a trampoline into its destination, which must use every one of
them. Otherwise there is no result and nothing has changed. -/
def mergePhis (fn : Func) (b dest : BlockRef) : Option Func := do
  let phis := (fn.block b).phis
  let consumers ← phis.mapM fun p => fn.findPhiUsing dest (fn.phi p).result
  let merged := (phis.zip consumers).foldl (fun fn pc => mergeInto fn pc.1 pc.2) fn
  return merged.modifyBlock b fun bb => { bb with phis := [] }

/-! The steps of a pass, in any monad that has its state. -/

section

variable {m : Type → Type} [Monad m] [MonadStateOf Threading m] [MonadExceptOf Fault m]
  [MonadLiftT (Except Fault) m] [Listener m]

def modifyFn (f : Func → Func) : m Unit := modify fun s => { s with fn := f s.fn }

def count (f : Stats → Stats) : m Unit := modify fun s => { s with stats := f s.stats }

/-- Marks a trampoline as eliminated, unless it is already. -/
def eliminate (b : BlockRef) : m Unit := do
  if b ∈ (← get).removed then return
  modifyFn fun fn => fn.modifyBlock b fun bb => { bb with dead := true }
  modify fun s => { s with removed := s.removed ++ [b] }
  count fun c => { c with eliminated := c.eliminated + 1 }

/-- Moves an edge of `bb` from a trampoline to where its jump leads. -/
def bypass (bb : Option BlockRef) (b : BlockRef) (jmp : OpRef) : m BlockRef := do
  let s ← get
  let dest ← target s.fn b jmp
  if dest = b then
    count fun c => { c with selfLoops := c.selfLoops + 1 }
    return b
  match mergePhis s.fn b dest with
  | none =>
    count fun c => { c with phiRejects := c.phiRejects + 1 }
    return b
  | some fn =>
    modifyFn fun _ => fn
    count fun c => { c with phiMerges := c.phiMerges + (s.fn.block b).phis.length }
    eliminate b
    modifyFn fun fn => (fn.removeParent dest (some b)).addParent dest bb
    return dest

/-- Moves an edge of `bb` from an eliminated block to where that leads by now. -/
def shortCircuit (bb : Option BlockRef) (b : BlockRef) (jmp : OpRef) : m BlockRef := do
  let s ← get
  let dest ← resolve s.fn s.removed b jmp
  Listener.resolved b dest
  modifyFn fun fn => fn.addParent dest bb
  count fun c => { c with shortCircuits := c.shortCircuits + 1 }
  return dest

/-- What takes the place of a reference to `b` in an operation of `bb`. The jump of a trampoline is
threaded first, by `follow`. -/
def threadBlock (follow : OpRef → BlockRef → m Unit) (bb : Option BlockRef) (b : BlockRef) :
    m BlockRef := do
  let s ← get
  match s.fn.leadingJump b with
  | none => return b
  | some jmp =>
    if b ∈ s.removed then shortCircuit bb b jmp
    else
      follow jmp b
      bypass bb b jmp

def thread (follow : OpRef → BlockRef → m Unit) (bb : Option BlockRef) :
    Option BlockRef → m (Option BlockRef)
  | none => pure none
  | some b => do
    let dest ← threadBlock follow bb b
    Listener.threaded b dest
    return some dest

def threadTarget (follow : OpRef → BlockRef → m Unit) (bb : Option BlockRef) (t : Target) :
    m Target := do
  return { t with block := ← thread follow bb t.block }

/-- Writes the references of an attribute, also if that turns out to be a fault. -/
def writeBack (o : OpRef) (i : Nat) (tt : List Target) : m Unit := do
  let s ← get
  let (fn, fault) := s.fn.store o i tt
  modifyFn fun _ => fn
  match fault with
  | some e => throw e
  | none => pure ()

def threadAttribute (follow : OpRef → BlockRef → m Unit) (o : OpRef) (bb : Option BlockRef)
    (i : Nat) : m Unit := do
  match ((← get).fn.op o).attributes[i]? with
  | none => pure ()
  | some a =>
    let tt ← a.slot.targets.mapM (threadTarget follow bb)
    writeBack o i tt

/-- Threads every reference of an operation, one attribute after the other. -/
def threadOp (follow : OpRef → BlockRef → m Unit) (o : OpRef) (bb : Option BlockRef) :
    m Unit := do
  let count := ((← get).fn.op o).attributes.length
  (List.range count).forM (threadAttribute follow o bb)

/-- Threads an operation of `bb`, unless that has begun already further out: `idle` holds the
operations whose threading has not begun. -/
def simplifyIdle (idle : List OpRef) (o : OpRef) (bb : Option BlockRef) : m Unit :=
  if h : o ∈ idle then
    threadOp (fun jmp b => simplifyIdle (idle.erase o) jmp (some b)) o bb
  else pure ()
termination_by idle.length
decreasing_by
  have := List.length_erase_of_mem h
  have := List.length_pos_of_mem h
  omega

variable (m) in
/-- Threads every reference of an operation of `bb`. -/
def simplifyIn (o : OpRef) (bb : Option BlockRef) : m Unit := do
  simplifyIdle (List.range (← get).fn.ops.length) o bb

variable (m) in
/-- Threads every operation that a walk comes to. -/
def visitorIn : VisitorIn m where
  enterOp o b := simplifyIn m o (some b)

end

abbrev M := Action Threading

/-- Nobody listens. -/
instance : Listener M where
  resolved _ _ := pure ()
  threaded _ _ := pure ()

def simplify (o : OpRef) (bb : Option BlockRef) : M Unit := simplifyIn M o bb

def visitor : Visitor Threading := visitorIn M

/-- Threads the jumps of all blocks reachable from the entry. -/
def run : M Unit := do
  Visitor.walk (·.fn) [visitor] (← get).fn.entry

end Threading

/-- One pass over a function, with nothing eliminated yet. -/
def threadJumps : Action Work Unit := fun w =>
  let (r, s) := Threading.run.run { w with }
  (r, s.toWork)

end FlowGraph
