import FlowGraph.Fault
import FlowGraph.KeyMap

/-! Operations and the blocks they refer to. Every operation shows its block references as a
list of named attributes, so that passes and printers need not know the kinds of operations.
An attribute is read as a list of targets and written back without a change of shape. -/

namespace FlowGraph

/-- A block, by its place in the function. -/
abbrev BlockRef := Nat

instance : LawfulBEq (Option BlockRef) := inferInstance

/-- An operation, by its place in the function. Several blocks may hold the same one. -/
abbrev OpRef := Nat

abbrev PhiRef := Nat

abbrev ValueRef := Nat

/-- One block reference of an attribute. The key is the index in a list, the case value in a
keyed attribute, and 0 in a single one. -/
structure Target where
  key : Int
  block : Option BlockRef
deriving DecidableEq, Repr

/-- What an attribute holds. -/
inductive Slot where
  | single (block : Option BlockRef)
  | list (blocks : List (Option BlockRef))
  /-- A map that was never made holds nothing, as an empty one does. -/
  | keyed (blocks : Option (KeyMap (Option BlockRef)))
deriving DecidableEq, Repr

namespace Slot

def isCollection : Slot → Bool
  | single _ => false
  | _ => true

/-- The references in order: by index in a list, by key in a keyed attribute. -/
def targets : Slot → List Target
  | single b => [⟨0, b⟩]
  | list bs => bs.zipIdx.map fun (b, i) => ⟨i, b⟩
  | keyed m => (m.getD .empty).entries.map fun (k, b) => ⟨k.toInt, b⟩

def storeList : List (Option BlockRef) → List Target → List (Option BlockRef) × Option Fault
  | bs, [] => (bs, none)
  | bs, t :: tt =>
    if 0 ≤ t.key ∧ t.key < bs.length then storeList (bs.set t.key.toNat t.block) tt
    else (bs, some (.indexOutOfRange t.key bs.length))

/-- A map is made first if there is none and something is to go into it. -/
def storeKeyed (m : Option (KeyMap (Option BlockRef))) (tt : List Target) :
    Option (KeyMap (Option BlockRef)) :=
  let m := if m.isNone && !tt.isEmpty then some .empty else m
  m.map fun m => tt.foldl (fun m t => m.insert (Int64.ofInt t.key) t.block) m

/-- Writes references back. What was written before a fault stays written. -/
def store (name : Text) (tt : List Target) : Slot → Slot × Option Fault
  | single b =>
    match tt with
    | [t] => (single t.block, none)
    | _ => (single b, some (.notSingle name tt.length))
  | list bs =>
    let (bs, fault) := storeList bs tt
    (list bs, fault)
  | keyed m => (keyed (storeKeyed m tt), none)

end Slot

structure Attribute where
  name : Text
  slot : Slot
deriving DecidableEq, Repr

inductive Op where
  /-- Goes on at the target. -/
  | jump (target : Option BlockRef)
  /-- Goes on at one of two blocks. -/
  | branch (cond : Option ValueRef) (onTrue onFalse : Option BlockRef)
  /-- Goes on at the block of the matching case, or at the default. -/
  | switch (cond : Option ValueRef) (cases : Option (KeyMap (Option BlockRef)))
      (default : Option BlockRef)
  /-- Opens a region with handlers. -/
  | region (body : Option BlockRef) (handlers : List (Option BlockRef))
      (last : Option BlockRef)
  /-- Computes something. -/
  | expr (name : Text) (result : Option ValueRef) (args : List (Option ValueRef))
  /-- Leaves the function. -/
  | ret (value : Option ValueRef)
  /-- An operation of a type that the library does not know. -/
  | foreign (kind text : Text) (attributes : List Attribute)
deriving DecidableEq, Repr

namespace Op

instance : Inhabited Op := ⟨ret none⟩

def attributes : Op → List Attribute
  | jump t => [⟨"target", .single t⟩]
  | branch _ t f => [⟨"if", .single t⟩, ⟨"else", .single f⟩]
  | switch _ m d => [⟨"cases", .keyed m⟩, ⟨"default", .single d⟩]
  | region b hs l => [⟨"body", .single b⟩, ⟨"catch", .list hs⟩, ⟨"finally", .single l⟩]
  | expr .. | ret _ => []
  | foreign _ _ as => as

/-- Replaces what the attribute with the given number holds. A slot of the wrong shape for a
known operation changes nothing. -/
def setSlot : Op → Nat → Slot → Op
  | jump _, 0, .single b => jump b
  | branch c _ f, 0, .single b => branch c b f
  | branch c t _, 1, .single b => branch c t b
  | switch c _ d, 0, .keyed m => switch c m d
  | switch c m _, 1, .single b => switch c m b
  | region _ hs l, 0, .single b => region b hs l
  | region b _ l, 1, .list hs => region b hs l
  | region b hs _, 2, .single l => region b hs l
  | foreign k t as, i, s => foreign k t (as.modify i fun a => { a with slot := s })
  | op, _, _ => op

/-- Writes references back into the attribute with the given number. -/
def store (op : Op) (i : Nat) (tt : List Target) : Op × Option Fault :=
  match op.attributes[i]? with
  | none => (op, none)
  | some a =>
    let (slot, fault) := a.slot.store a.name tt
    (op.setSlot i slot, fault)

/-- All references in attribute order and the order of each attribute. -/
def targets (op : Op) : List Target := op.attributes.flatMap (·.slot.targets)

/-- The blocks that the operation refers to, with repetitions. -/
def blocks (op : Op) : List BlockRef := op.targets.filterMap (·.block)

def isJump : Op → Bool
  | jump _ => true
  | _ => false

end Op

end FlowGraph
