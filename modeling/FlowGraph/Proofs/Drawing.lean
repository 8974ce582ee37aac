import Mathlib
import FlowGraph.Func.Dot
import FlowGraph.Proofs.Acceptance
import FlowGraph.Proofs.BreadthFirst
import FlowGraph.Proofs.Lawful
import FlowGraph.Proofs.Names

/-! What a drawing of a function shows. Nodes come from a search and edges from the references of
each block, so it takes an argument that they fit together: every reachable block is one node, every
pair of a reachable block and a live block that it refers to is one edge, under the label of the
first reference, and no edge leads to a block without a node. -/

namespace FlowGraph

/-- A statement of a drawing: a node, with a table unless it is the start, or an edge, with a label
unless it comes from the start. -/
inductive DotStatement where
  | node (name : Text) (table : Option Text)
  | edge (source target : Text) (label : Option Text)

namespace DotStatement

def text : DotStatement → Text
  | node n none => "    " ++ n ++ " [ shape = \"circle\" ]\n"
  | node n (some t) => "    " ++ n ++ " [ label = < " ++ t ++ " > ]\n"
  | edge p q none => "    " ++ p ++ " -> " ++ q ++ "\n"
  | edge p q (some l) => "    " ++ p ++ " -> " ++ q ++ " [ label = \"" ++ l ++ "\" ]\n"

def nodeName? : DotStatement → Option Text
  | node n _ => some n
  | edge .. => none

def ends? : DotStatement → Option (Text × Text)
  | node .. => none
  | edge p q _ => some (p, q)

/-- The node that leads to the entry. -/
def start : Text := "START"

end DotStatement

open DotStatement

/-- How a reference is called: by its attribute, with the key in a collection. -/
def Attribute.label (a : Attribute) (t : Target) : Text :=
  if a.slot.isCollection then a.name ++ "[" ++ Text.ofInt t.key ++ "]" else a.name

namespace Func

variable {fn : Func} {entry b p q : BlockRef} {l : Text}

/-! ## References -/

/-- The references of a block in the order of its operations, their attributes and the keys. -/
def references (fn : Func) (b : BlockRef) : List (Attribute × Target) :=
  (fn.block b).ops.flatMap fun o => (fn.op o).attributes.flatMap fun a =>
    a.slot.targets.map fun t => (a, t)

/-- The label of the first reference of a block to another. -/
def firstLabel? (fn : Func) (p q : BlockRef) : Option Text :=
  ((fn.references p).find? (·.2.block = some q)).map fun r => r.1.label r.2

theorem map_references (fn : Func) (b : BlockRef) :
    (fn.references b).map Prod.snd = fn.targetsOf b := by
  simp [references, targetsOf, Op.targets, List.map_flatMap, Function.comp_def]

theorem isSome_firstLabel?_iff : (fn.firstLabel? p q).isSome ↔ fn.Refers p q := by
  rw [firstLabel?, Option.isSome_map, List.find?_isSome, ← targets_iff, targets, ← map_references,
    List.any_map, List.any_eq_true]
  rfl

/-- The edge of a reference, if it leads to a live block. -/
def edgeOf? (fn : Func) (r : Attribute × Target) : Option Edge :=
  match r.2.block with
  | none => none
  | some q => if fn.isLive q then some ⟨q, r.1.label r.2⟩ else none

theorem dotReferences_eq (fn : Func) (b : BlockRef) :
    fn.dotReferences b = (fn.references b).filterMap fn.edgeOf? := by
  simp only [dotReferences, references, List.filterMap_flatMap, List.filterMap_map]
  rfl

theorem edgeOf?_eq_some {r : Attribute × Target} {e : Edge} : fn.edgeOf? r = some e ↔
    fn.isLive e.target = true ∧ r.2.block = some e.target ∧ r.1.label r.2 = e.label := by
  obtain ⟨q, l⟩ := e
  rw [edgeOf?]
  cases r.2.block with
  | none => simp
  | some c => grind

theorem mem_firstEdges {es : List Edge} {e : Edge} :
    e ∈ firstEdges es ↔ es.find? (·.target = e.target) = some e := by
  induction es with
  | nil => simp [firstEdges]
  | cons x es ih =>
    rw [firstEdges, List.mem_cons, List.mem_filter, ih]
    by_cases hx : x.target = e.target
    · simp [hx, eq_comm]
    · have hne : e ≠ x := fun h => hx (h ▸ rfl)
      simp [hx, hne, Ne.symm hx]

theorem nodup_firstEdges (es : List Edge) : ((firstEdges es).map Edge.target).Nodup := by
  induction es with
  | nil => exact .nil
  | cons e es ih =>
    rw [firstEdges, List.map_cons, List.nodup_cons]
    refine ⟨fun hmem => ?_, ih.sublist (List.filter_sublist.map _)⟩
    obtain ⟨x, hx, heq⟩ := List.mem_map.mp hmem
    simpa [heq] using (List.mem_filter.mp hx).2

/-- The edges that are drawn from a block: one to each live block that it refers to. -/
theorem mem_edges_iff {e : Edge} : e ∈ firstEdges (fn.dotReferences p) ↔
    fn.isLive e.target = true ∧ fn.firstLabel? p e.target = some e.label := by
  rw [mem_firstEdges, dotReferences_eq, List.find?_filterMap]
  cases hlive : fn.isLive e.target with
  | false =>
    simp only [Option.bind_eq_some_iff, edgeOf?_eq_some, hlive]
    simp
  | true =>
    -- a reference to the target is the first one exactly if its edge is
    have hsame : (fun r => (fn.edgeOf? r).any (·.target = e.target)) =
        fun r : Attribute × Target => decide (r.2.block = some e.target) := by
      funext r
      rw [Bool.eq_iff_iff, Option.any_eq_true, decide_eq_true_iff]
      constructor
      · rintro ⟨x, hx, htarget⟩
        rw [(edgeOf?_eq_some.mp hx).2.1, of_decide_eq_true htarget]
      · intro hr
        exact ⟨⟨e.target, r.1.label r.2⟩, edgeOf?_eq_some.mpr ⟨hlive, hr, rfl⟩, by simp⟩
    rw [hsame, firstLabel?, Option.bind_eq_some_iff, Option.map_eq_some_iff]
    simp only [edgeOf?_eq_some, hlive, true_and]
    refine exists_congr fun r => and_congr_right fun hr => ?_
    have htarget : r.2.block = some e.target := by simpa using List.find?_some hr
    exact ⟨And.right, fun hl => ⟨htarget, hl⟩⟩

theorem mem_reachable_of_edge (hp : p ∈ fn.reachable entry)
    (hq : q ∈ (firstEdges (fn.dotReferences p)).map Edge.target) : q ∈ fn.reachable entry := by
  obtain ⟨e, he, rfl⟩ := List.mem_map.mp hq
  obtain ⟨hlive, hlabel⟩ := mem_edges_iff.mp he
  exact reachable_closed hp (isSome_firstLabel?_iff.mp (by simp [hlabel])) hlive

/-! ## Names -/

theorem start_ne_name (b : Block) : start ≠ b.name := by
  intro h
  have hhead : b.name.head? = some 98 := rfl
  rw [← h] at hhead
  exact absurd hhead (by decide)

theorem lt_of_refers (h : fn.Refers p q) : p < fn.blocks.length := by
  obtain ⟨o, ho, -⟩ := h
  by_contra hp
  rw [block, List.getD_eq_default _ _ (Nat.le_of_not_lt hp)] at ho
  cases ho

/-- Blocks with different numbers have different names. -/
theorem name_injOn_reachable (hids : (fn.blocks.map Block.id).Nodup) (entry : BlockRef) :
    Set.InjOn (fun b => (fn.block b).name) {b | b ∈ fn.reachable entry} := by
  intro b hb c hc hname
  have hid : (fn.block b).id = (fn.block c).id := blockName_injective hname
  by_cases hentry : entry < fn.blocks.length
  · exact eq_of_id_eq hids (lt_of_mem_reachable hentry hb) (lt_of_mem_reachable hentry hc) hid
  · -- nothing can be reached from an entry that is no block
    have halone : ∀ x ∈ fn.reachable entry, x = entry := fun x hx =>
      reachable_of_closed (P := (· = entry)) rfl
        (fun y hy z hr _ => absurd (hy ▸ lt_of_refers hr) hentry) hx
    rw [halone b hb, halone c hc]

/-! ## Statements -/

/-- What a drawing says before the first node. -/
def dotOpening (fn : Func) : Text :=
  "digraph " ++ Text.quoted fn.name ++ " \x7b\n" ++
    "    graph [ fontname = \"Fira Code\" ]\n" ++
    "    node [ fontname = \"Fira Code\" fontsize = \"16\" shape = \"plaintext\" ]\n" ++
    "    edge [ fontname = \"Fira Code\" ]\n"

/-- The statements about a block with the given table. -/
def blockStatements (fn : Func) (b : BlockRef) (table : Text) : List DotStatement :=
  node (fn.block b).name (some table) :: (firstEdges (fn.dotReferences b)).map fun e =>
    edge (fn.block b).name (fn.block e.target).name (some e.label)

/-- All statements about nodes and edges, where `table` has the tables of the blocks. -/
def dotStatements (fn : Func) (entry : BlockRef) (table : BlockRef → Text) : List DotStatement :=
  node start none :: edge start (fn.block entry).name none ::
    (fn.reachable entry).flatMap fun b => fn.blockStatements b (table b)

theorem dotLabel_ok (h : none ∉ (fn.block b).parents) : ∃ t, fn.dotLabel b = .ok t := by
  rw [dotLabel, exists_bind_ok]
  have hparents : ∃ names, fn.dotParents (fn.block b).parents = .ok names := by
    refine exists_mapM_ok.mpr fun p hp => ?_
    cases p with
    | none => exact absurd hp h
    | some p => exact ⟨_, rfl⟩
  obtain ⟨names, hnames⟩ := hparents
  exact ⟨names, hnames, _, rfl⟩

theorem dotBlock_eq {t : Text} (h : fn.dotLabel b = .ok t) :
    fn.dotBlock b = .ok ((fn.blockStatements b t).flatMap text) := by
  rw [dotBlock, h, blockStatements, List.flatMap_cons, List.flatMap_map]
  rfl

theorem dot_eq {table : BlockRef → Text} (hentry : fn.entry = some entry)
    (htable : ∀ b ∈ fn.reachable entry, fn.dotLabel b = .ok (table b)) :
    fn.dot = .ok (fn.dotOpening ++ (fn.dotStatements entry table).flatMap text ++ "\x7d\n") := by
  have hbody : (fn.reachable entry).mapM fn.dotBlock =
      .ok ((fn.reachable entry).map fun b => (fn.blockStatements b (table b)).flatMap text) := by
    rw [mapM_eq_ok_iff, List.forall₂_map_right_iff, List.forall₂_same]
    exact fun b hb => dotBlock_eq (htable b hb)
  have hnode : text (node start none) = "    START [ shape = \"circle\" ]\n" := by
    decide
  have hstart : ("    " ++ start ++ " -> " : Text) = "    START -> " := by
    decide
  rw [dot, hentry, dotStatements, List.flatMap_cons, List.flatMap_cons, List.flatMap_assoc, hnode,
    text, hstart]
  show ((fn.reachable entry).mapM fn.dotBlock >>= fun body => _) = _
  rw [hbody]
  show Except.ok _ = Except.ok _
  simp only [dotOpening, Option.map_some, Option.getD_some, List.flatMap_def, List.append_assoc]

/-! ## The drawing -/

/-- What a drawing shows of a function: -/
structure Draws (fn : Func) (entry : BlockRef) (statements : List DotStatement) : Prop where
  /-- a node for the start and one for each reachable block, -/
  nodes : statements.filterMap nodeName? =
    start :: (fn.reachable entry).map fun b => (fn.block b).name
  /-- no two under one name, -/
  nodup_nodes : (statements.filterMap nodeName?).Nodup
  /-- each with the table of its block; -/
  tables : ∀ n t, node n t ∈ statements ↔ n = start ∧ t = none ∨
    ∃ b table, b ∈ fn.reachable entry ∧ n = (fn.block b).name ∧ fn.dotLabel b = .ok table ∧
      t = some table
  /-- an edge from the start to the entry, and one from each reachable block to each live block that
  it refers to, under the label of the first reference, -/
  edges : ∀ s t l, edge s t l ∈ statements ↔ s = start ∧ t = (fn.block entry).name ∧ l = none ∨
    ∃ p q label, p ∈ fn.reachable entry ∧ fn.isLive q = true ∧ fn.Refers p q ∧
      s = (fn.block p).name ∧ t = (fn.block q).name ∧ fn.firstLabel? p q = some label ∧
      l = some label
  /-- no two between the same nodes, -/
  nodup_edges : (statements.filterMap ends?).Nodup
  /-- and none without a node at each end. -/
  anchored : ∀ s t l, edge s t l ∈ statements →
    s ∈ statements.filterMap nodeName? ∧ t ∈ statements.filterMap nodeName?

theorem nodeNames_dotStatements (table : BlockRef → Text) :
    (fn.dotStatements entry table).filterMap nodeName? =
      start :: (fn.reachable entry).map fun b => (fn.block b).name := by
  have hblock : ∀ b, (fn.blockStatements b (table b)).filterMap nodeName? =
      [(fn.block b).name] := by
    intro b
    simp [blockStatements, nodeName?, List.filterMap_map]
  simp [dotStatements, nodeName?, List.filterMap_cons, List.filterMap_flatMap, hblock,
    List.map_eq_flatMap]

theorem ends_dotStatements (table : BlockRef → Text) :
    (fn.dotStatements entry table).filterMap ends? =
      (start, (fn.block entry).name) :: (fn.reachable entry).flatMap fun p =>
        ((firstEdges (fn.dotReferences p)).map Edge.target).map fun q =>
          ((fn.block p).name, (fn.block q).name) := by
  simp [dotStatements, blockStatements, ends?, List.filterMap_cons, List.filterMap_flatMap,
    List.filterMap_map, Function.comp_def]

theorem mem_nodes_dotStatements {table : BlockRef → Text} {n : Text} {t : Option Text} :
    node n t ∈ fn.dotStatements entry table ↔ n = start ∧ t = none ∨
      ∃ b ∈ fn.reachable entry, n = (fn.block b).name ∧ t = some (table b) := by
  simp [dotStatements, blockStatements]

theorem mem_edges_dotStatements {table : BlockRef → Text} {s t : Text} {l : Option Text} :
    edge s t l ∈ fn.dotStatements entry table ↔
      s = start ∧ t = (fn.block entry).name ∧ l = none ∨
      ∃ p ∈ fn.reachable entry, ∃ e ∈ firstEdges (fn.dotReferences p),
        s = (fn.block p).name ∧ t = (fn.block e.target).name ∧ l = some e.label := by
  simp [dotStatements, blockStatements, eq_comm]

theorem nodup_nodeNames (hids : (fn.blocks.map Block.id).Nodup) (entry : BlockRef) :
    (start :: (fn.reachable entry).map fun b => (fn.block b).name).Nodup := by
  refine List.nodup_cons.mpr ⟨fun h => ?_, ?_⟩
  · obtain ⟨b, -, hb⟩ := List.mem_map.mp h
    exact start_ne_name _ hb.symm
  · exact (nodup_reachable fn entry).map_on fun b hb c hc h =>
      name_injOn_reachable hids entry hb hc h

/-- Live blocks that a reachable block refers to are reachable, so their names differ too. -/
theorem nodup_ends (hids : (fn.blocks.map Block.id).Nodup) (entry : BlockRef) :
    ((start, (fn.block entry).name) :: (fn.reachable entry).flatMap fun p =>
      ((firstEdges (fn.dotReferences p)).map Edge.target).map fun q =>
        ((fn.block p).name, (fn.block q).name)).Nodup := by
  have hinj := name_injOn_reachable hids entry
  refine List.nodup_cons.mpr ⟨fun h => ?_, List.nodup_flatMap.mpr ⟨fun p hp => ?_, ?_⟩⟩
  · obtain ⟨p, -, h⟩ := List.mem_flatMap.mp h
    obtain ⟨q, -, h⟩ := List.mem_map.mp h
    exact start_ne_name _ (congrArg Prod.fst h).symm
  · refine (nodup_firstEdges _).map_on fun q hq r hr h => hinj ?_ ?_ (congrArg Prod.snd h)
    · exact mem_reachable_of_edge hp hq
    · exact mem_reachable_of_edge hp hr
  · refine (nodup_reachable fn entry).imp_of_mem fun hp hp' hne e he he' => hne ?_
    obtain ⟨q, -, rfl⟩ := List.mem_map.mp he
    obtain ⟨q', -, h⟩ := List.mem_map.mp he'
    exact hinj hp hp' (congrArg Prod.fst h).symm

theorem draws_dotStatements {table : BlockRef → Text} (hids : (fn.blocks.map Block.id).Nodup)
    (htable : ∀ b ∈ fn.reachable entry, fn.dotLabel b = .ok (table b)) :
    fn.Draws entry (fn.dotStatements entry table) where
  nodes := nodeNames_dotStatements table
  nodup_nodes := by
    rw [nodeNames_dotStatements]
    exact nodup_nodeNames hids entry
  tables n t := by
    rw [mem_nodes_dotStatements]
    refine or_congr_right (exists_congr fun b => ?_)
    constructor
    · rintro ⟨hb, hn, ht⟩
      exact ⟨table b, hb, hn, htable b hb, ht⟩
    · rintro ⟨l, hb, hn, hl, ht⟩
      cases (htable b hb).symm.trans hl
      exact ⟨hb, hn, ht⟩
  edges s t l := by
    rw [mem_edges_dotStatements]
    refine or_congr_right (exists_congr fun p => ?_)
    constructor
    · rintro ⟨hp, e, he, hs, ht, hl⟩
      obtain ⟨hlive, hlabel⟩ := mem_edges_iff.mp he
      exact ⟨e.target, e.label, hp, hlive, isSome_firstLabel?_iff.mp (by simp [hlabel]), hs, ht,
        hlabel, hl⟩
    · rintro ⟨q, label, hp, hlive, -, hs, ht, hlabel, hl⟩
      exact ⟨hp, ⟨q, label⟩, mem_edges_iff.mpr ⟨hlive, hlabel⟩, hs, ht, hl⟩
  nodup_edges := by
    rw [ends_dotStatements]
    exact nodup_ends hids entry
  anchored s t l h := by
    rw [nodeNames_dotStatements]
    rcases mem_edges_dotStatements.mp h with ⟨rfl, rfl, -⟩ | ⟨p, hp, e, he, rfl, rfl, -⟩
    · exact ⟨List.mem_cons_self, List.mem_cons_of_mem _
        (List.mem_map_of_mem (entry_mem_reachable fn entry))⟩
    · have hq := mem_reachable_of_edge hp (List.mem_map_of_mem he)
      exact ⟨List.mem_cons_of_mem _ (List.mem_map_of_mem hp),
        List.mem_cons_of_mem _ (List.mem_map_of_mem hq)⟩

/-- A function with an entry, different numbers for its blocks and no missing parent is drawn with
exactly its reachable blocks and the edges between them. -/
theorem dot_shows_live_graph (hentry : fn.entry = some entry)
    (hids : (fn.blocks.map Block.id).Nodup)
    (hreal : ∀ b ∈ fn.reachable entry, none ∉ (fn.block b).parents) :
    ∃ statements, fn.dot = .ok (fn.dotOpening ++ statements.flatMap text ++ "\x7d\n") ∧
      fn.Draws entry statements := by
  choose! table htable using fun b hb => dotLabel_ok (hreal b hb)
  exact ⟨_, dot_eq hentry htable, draws_dotStatements hids htable⟩

/-- An eliminated entry that refers to itself and to an eliminated block, and to two blocks more
than once each. -/
def crossroads : Func where
  name := "f"
  entry := some 0
  blocks := [
    { id := 7, ops := [0, 1], dead := true, parents := [some 0] },
    { id := -2, ops := [2], parents := [some 0, some 3] },
    { id := 4, parents := [some 0, some 1] },
    { id := 0, ops := [2], dead := true, parents := [some 0] }]
  ops := [.region (some 1) [some 2, some 1, none] (some 3), .branch none (some 0) (some 2),
    .jump (some 2)]

theorem crossroads_drawn : crossroads.entry = some 0 ∧ (crossroads.blocks.map Block.id).Nodup ∧
    (∀ b ∈ crossroads.reachable 0, none ∉ (crossroads.block b).parents) ∧
    ∃ statements,
      crossroads.dot = .ok (crossroads.dotOpening ++ statements.flatMap text ++ "\x7d\n") ∧
        crossroads.Draws 0 statements := by
  have hids : (crossroads.blocks.map Block.id).Nodup := by decide
  have hreal : ∀ b, none ∉ (crossroads.block b).parents
    | 0 | 1 | 2 | 3 => by decide
    | _ + 4 => List.not_mem_nil
  have hreach : ∀ b ∈ crossroads.reachable 0, none ∉ (crossroads.block b).parents :=
    fun b _ => hreal b
  exact ⟨rfl, hids, hreach, dot_shows_live_graph rfl hids hreach⟩

/-- A block that lists a parent which is not there. -/
def orphan : Func where
  name := "f"
  entry := some 0
  blocks := [{ id := 1, parents := [none] }]

/-- A missing parent has no name, so its child cannot be drawn. -/
theorem orphan_not_drawn : orphan.entry = some 0 ∧ (orphan.blocks.map Block.id).Nodup ∧
    orphan.dot = .error .missingBlock ∧
    ¬∃ statements,
      orphan.dot = .ok (orphan.dotOpening ++ statements.flatMap text ++ "\x7d\n") ∧
        orphan.Draws 0 statements := by
  have hdot : orphan.dot = .error .missingBlock := by cbv
  refine ⟨rfl, by decide, hdot, ?_⟩
  rintro ⟨statements, hok, -⟩
  cases hdot.symm.trans hok

end Func

end FlowGraph
