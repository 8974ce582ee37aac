import Mathlib
import FlowGraph.Proofs.Contents

/-! Which documents describe functions. Being well formed is said here field by field and without
regard to the order of the checks; a document is accepted exactly if it is well formed. Whether a
block can be filled depends on the labels of the function alone and never on what was filled before,
so the checks of different blocks do not meet. -/

namespace FlowGraph

section

variable {ε α β : Type}

theorem exists_bind_ok {x : Except ε α} {f : α → Except ε β} :
    (∃ b, x >>= f = .ok b) ↔ ∃ a, x = .ok a ∧ ∃ b, f a = .ok b := by
  simp only [bind_eq_ok, exists_comm (α := β), exists_and_left]

@[simp] theorem exists_pure_ok (a : α) : ∃ b, (pure a : Except ε α) = .ok b := ⟨a, rfl⟩

theorem exists_mapM_ok {f : α → Except ε β} {xs : List α} :
    (∃ ys, xs.mapM f = .ok ys) ↔ ∀ x ∈ xs, ∃ y, f x = .ok y := by
  induction xs with
  | nil => simp
  | cons x xs ih =>
    simp only [List.mapM_cons, exists_bind_ok, exists_pure_ok, and_true, exists_and_right, ih,
      List.forall_mem_cons]

/-- A fold in which no step depends on what the others left behind. -/
theorem exists_foldlM_ok {f : β → α → Except ε β} {Q : α → Prop} {xs : List α} {b : β}
    (step : ∀ x ∈ xs, ∀ b, (∃ c, f b x = .ok c) ↔ Q x) :
    (∃ c, xs.foldlM f b = .ok c) ↔ ∀ x ∈ xs, Q x := by
  induction xs generalizing b with
  | nil => simp
  | cons x xs ih =>
    have hrest : ∀ b, (∃ c, xs.foldlM f b = .ok c) ↔ ∀ x ∈ xs, Q x :=
      fun b => ih fun y hy => step y (List.mem_cons_of_mem x hy)
    simp only [List.foldlM_cons, exists_bind_ok, hrest, exists_and_right,
      step x List.mem_cons_self b, List.forall_mem_cons]

end

/-! ## Well-formed documents -/

namespace OpDoc

/-- The kinds of operations. -/
def kinds : List Text := ["jump", "jumpif", "switch", "try", "expr", "return"]

/-- The labels in the fields that count for the kind. -/
def labels (o : OpDoc) : List Text :=
  if o.kind = "jump" then [o.target]
  else if o.kind = "jumpif" then [o.onTrue, o.onFalse]
  else if o.kind = "switch" then o.cases.entries.map Prod.snd ++ [o.default]
  else if o.kind = "try" then o.body :: o.handlers ++ [o.last]
  else []

/-- An operation among blocks with the given labels. -/
@[mk_iff]
structure WellFormed (known : List Text) (o : OpDoc) : Prop where
  kind : o.kind ∈ kinds
  target : o.kind = "jump" → o.target ≠ []
  name : o.kind = "expr" → o.name ≠ []
  labels : ∀ l ∈ o.labels, l ≠ [] → l ∈ known

end OpDoc

/-- A function. -/
structure FuncDoc.WellFormed (f : FuncDoc) : Prop where
  blocks : f.blocks ≠ []
  labelled : ∀ b ∈ f.blocks, b.label ≠ []
  distinct : (f.blocks.map BlockDoc.label).Nodup
  entry : f.entry = [] ∨ f.entry ∈ f.blocks.map BlockDoc.label
  phis : ∀ b ∈ f.blocks, ∀ p ∈ b.phis, p.result ≠ []
  ops : ∀ b ∈ f.blocks, ∀ o ∈ b.ops, o.WellFormed (f.blocks.map BlockDoc.label)

structure Document.WellFormed (d : Document) : Prop where
  names : (d.functions.map FuncDoc.name).Nodup
  functions : ∀ f ∈ d.functions, f.WellFormed

/-! ## Acceptance of one function -/

theorem Scope.exists_block_ok {s : Scope} {l : Text} :
    (∃ b, s.block l = .ok b) ↔ (l ≠ [] → l ∈ s.labels) := by
  unfold Scope.block
  by_cases hl : l = []
  · simp [hl]
  · simp only [List.isEmpty_iff, hl, if_false]
    cases hi : s.labels.idxOf? l with
    | none => simp [hl, List.idxOf?_eq_none_iff.mp hi]
    | some i =>
      obtain ⟨hlt, hget, -⟩ := List.idxOf?_eq_some_iff.mp hi
      simp [← hget]

theorem Scope.exists_cases_ok {s : Scope} {m : KeyMap Text} :
    (∃ m', s.cases m = .ok m') ↔ ∀ l ∈ m.entries.map Prod.snd, l ≠ [] → l ∈ s.labels := by
  unfold Scope.cases
  simp only [exists_bind_ok, exists_pure_ok, and_true, exists_mapM_ok, Scope.exists_block_ok,
    List.forall_mem_map]

theorem OpDoc.ne_expr {k : Text} (h : k ∈ (["jump", "jumpif", "switch", "try"] : List Text)) :
    k ≠ "expr" := by
  have hall : ∀ k ∈ (["jump", "jumpif", "switch", "try"] : List Text), k ≠ "expr" := by decide
  exact hall k h

theorem OpDoc.exists_build_ok {s : Scope} {o : OpDoc} :
    (∃ op, o.build s = .ok op) ↔ o.WellFormed s.labels := by
  rw [OpDoc.wellFormed_iff]
  unfold OpDoc.build OpDoc.labels
  by_cases hjump : o.kind = "jump"
  · have hkind : o.kind ∈ kinds := by simp [kinds, hjump]
    have hexpr : o.kind ≠ "expr" := ne_expr (by simp [hjump])
    simp only [if_pos hjump, List.isEmpty_iff, hkind, hexpr]
    by_cases htarget : o.target = []
    · simp [hjump, htarget]
    · simp only [if_neg htarget, exists_bind_ok, exists_pure_ok, and_true, Scope.exists_block_ok]
      simp [htarget]
  simp only [hjump, if_false, false_implies, true_and]
  by_cases hbranch : o.kind = "jumpif"
  · have hkind : o.kind ∈ kinds := by simp [kinds, hbranch]
    have hexpr : o.kind ≠ "expr" := ne_expr (by simp [hbranch])
    simp only [if_pos hbranch, exists_bind_ok, exists_pure_ok, and_true, exists_and_right,
      Scope.exists_block_ok, hkind, hexpr]
    simp
  simp only [hbranch, if_false]
  by_cases hswitch : o.kind = "switch"
  · have hkind : o.kind ∈ kinds := by simp [kinds, hswitch]
    have hexpr : o.kind ≠ "expr" := ne_expr (by simp [hswitch])
    simp only [if_pos hswitch, exists_bind_ok, exists_pure_ok, and_true, exists_and_right,
      Scope.exists_block_ok, Scope.exists_cases_ok, hkind, hexpr, List.forall_mem_append]
    simp
  simp only [hswitch, if_false]
  by_cases hregion : o.kind = "try"
  · have hkind : o.kind ∈ kinds := by simp [kinds, hregion]
    have hexpr : o.kind ≠ "expr" := ne_expr (by simp [hregion])
    simp only [if_pos hregion, exists_bind_ok, exists_pure_ok, and_true, exists_and_right,
      Scope.exists_block_ok, exists_mapM_ok, hkind, hexpr, List.forall_mem_append,
      List.forall_mem_cons]
    simp [and_assoc]
  simp only [hregion, if_false]
  by_cases hexpr : o.kind = "expr"
  · have hkind : o.kind ∈ kinds := by simp [kinds, hexpr]
    simp only [if_pos hexpr, List.isEmpty_iff, hkind]
    by_cases hname : o.name = [] <;> simp [hexpr, hname]
  simp only [hexpr, if_false]
  by_cases hret : o.kind = "return"
  · have hkind : o.kind ∈ kinds := by simp [kinds, hret]
    simp only [if_pos hret, hkind]
    simp
  have hkinds : o.kind ∉ kinds := by simp [kinds, hjump, hbranch, hswitch, hregion, hexpr, hret]
  simp only [hret, if_false, hkinds, false_and, iff_false]
  split <;> simp

theorem PhiDoc.exists_build_ok {s : Scope} {p : PhiDoc} :
    (∃ phi, p.build s = .ok phi) ↔ p.result ≠ [] := by
  unfold PhiDoc.build
  by_cases h : p.result = [] <;> simp [h]

theorem BlockDoc.exists_fill_ok {s : Scope} {fn : Func} {b : BlockRef} {d : BlockDoc} :
    (∃ fn', d.fill s fn b = .ok fn') ↔
      (∀ p ∈ d.phis, p.result ≠ []) ∧ ∀ o ∈ d.ops, o.WellFormed s.labels := by
  have hphi : ∀ p ∈ d.phis, ∀ g, (∃ g', addPhi s b g p = .ok g') ↔ p.result ≠ [] := by
    intro p _ g
    unfold addPhi
    simp only [exists_bind_ok, mapError_eq_ok, exists_pure_ok, and_true, PhiDoc.exists_build_ok]
  have hop : ∀ o ∈ d.ops, ∀ g, (∃ g', addOp s b g o = .ok g') ↔ o.WellFormed s.labels := by
    intro o _ g
    unfold addOp
    simp only [exists_bind_ok, mapError_eq_ok, exists_pure_ok, and_true, OpDoc.exists_build_ok]
  unfold fill
  simp only [exists_bind_ok, exists_foldlM_ok hop, exists_and_right, exists_foldlM_ok hphi]

namespace FuncDoc

variable {f : FuncDoc}

theorem checkLabels_eq_ok_iff {seen : List Text} {bs : List BlockDoc} :
    checkLabels seen bs = .ok () ↔ (∀ b ∈ bs, b.label ≠ []) ∧ (bs.map BlockDoc.label).Nodup ∧
      ∀ b ∈ bs, b.label ∉ seen := by
  induction bs generalizing seen with
  | nil => simp [checkLabels]
  | cons b bs ih =>
    unfold checkLabels
    by_cases hempty : b.label = []
    · simp [hempty]
    · by_cases hseen : b.label ∈ seen
      · simp [hempty, hseen]
      · simp only [List.isEmpty_iff, hempty, hseen, if_false, ih]
        simp [hempty, hseen]
        grind

theorem exists_entryBlock_ok :
    (∃ e, f.entryBlock = .ok e) ↔ f.entry = [] ∨ f.entry ∈ f.blocks.map BlockDoc.label := by
  unfold entryBlock
  by_cases h : f.entry = []
  · simp [h]
  · simp only [List.isEmpty_iff, h, if_false, false_or]
    show _ ↔ f.entry ∈ f.scope.labels
    cases hi : f.scope.labels.idxOf? f.entry with
    | none => simp [List.idxOf?_eq_none_iff.mp hi]
    | some i =>
      obtain ⟨hlt, hget, -⟩ := List.idxOf?_eq_some_iff.mp hi
      simp [← hget]

/-- The description of a function is accepted exactly if it is well formed. -/
theorem exists_build_ok : (∃ fn, f.build = .ok fn) ↔ f.WellFormed := by
  have hfill : ∀ x ∈ f.blocks.zipIdx, ∀ g,
      (∃ g', (fun fn (x : BlockDoc × Nat) => x.1.fill f.scope fn x.2) g x = .ok g') ↔
        (∀ p ∈ x.1.phis, p.result ≠ []) ∧ ∀ o ∈ x.1.ops, o.WellFormed f.scope.labels :=
    fun x _ g => BlockDoc.exists_fill_ok
  have hblocks : ∀ e, (∃ fn, f.blocks.zipIdx.foldlM (fun fn x => x.1.fill f.scope fn x.2)
      (f.start e) = .ok fn) ↔ ∀ b ∈ f.blocks, (∀ p ∈ b.phis, p.result ≠ []) ∧
        ∀ o ∈ b.ops, o.WellFormed (f.blocks.map BlockDoc.label) := by
    intro e
    rw [exists_foldlM_ok hfill, ← List.forall_mem_map (f := Prod.fst)
      (P := fun b : BlockDoc => (∀ p ∈ b.phis, p.result ≠ []) ∧
        ∀ o ∈ b.ops, o.WellFormed f.scope.labels), List.zipIdx_map_fst]
    rfl
  constructor
  · intro h
    obtain ⟨fn, h⟩ := h
    obtain ⟨hne, hlabels, e, he, hfold⟩ := build_eq_ok_iff.mp h
    obtain ⟨hlabelled, hdistinct, -⟩ := checkLabels_eq_ok_iff.mp hlabels
    have hcontents := (hblocks e).mp ⟨fn, hfold⟩
    exact ⟨hne, hlabelled, hdistinct, exists_entryBlock_ok.mp ⟨e, he⟩,
      fun b hb => (hcontents b hb).1, fun b hb => (hcontents b hb).2⟩
  · intro h
    obtain ⟨e, he⟩ := exists_entryBlock_ok.mpr h.entry
    obtain ⟨fn, hfold⟩ := (hblocks e).mpr fun b hb => ⟨h.phis b hb, h.ops b hb⟩
    refine ⟨fn, build_eq_ok_iff.mpr ⟨h.blocks, ?_, e, he, hfold⟩⟩
    exact checkLabels_eq_ok_iff.mpr ⟨h.labelled, h.distinct, by simp⟩

end FuncDoc

/-! ## Acceptance of a document -/

/-- The counters after the given functions were built. -/
def Stats.loaded (st : Stats) (fs : List FuncDoc) : Stats :=
  { st with
    funcs := st.funcs + fs.length
    blocks := st.blocks + (fs.flatMap FuncDoc.blocks).length }

namespace Document

variable {path : Text} {seen : List Text} {f : FuncDoc} {fs : List FuncDoc} {st : Stats}

/-- Functions that can be built after others with the names `seen`. -/
def Acceptable (seen : List Text) : List FuncDoc → Prop
  | [] => True
  | f :: rest => f.name ∉ seen ∧ f.WellFormed ∧ Acceptable (f.name :: seen) rest

theorem acceptable_iff : Acceptable seen fs ↔
    (∀ f ∈ fs, f.name ∉ seen ∧ f.WellFormed) ∧ (fs.map FuncDoc.name).Nodup := by
  induction fs generalizing seen with
  | nil => simp [Acceptable]
  | cons f fs ih =>
    simp only [Acceptable, ih, List.mem_cons, List.map_cons, List.nodup_cons, List.mem_map]
    grind

theorem wellFormed_iff_acceptable (d : Document) : d.WellFormed ↔ Acceptable [] d.functions := by
  rw [acceptable_iff]
  constructor
  · intro h
    exact ⟨fun f hf => ⟨by simp, h.functions f hf⟩, h.names⟩
  · intro h
    exact ⟨h.2, fun f hf => (h.1 f hf).2⟩

theorem Acceptable.of_append {gs : List FuncDoc} (h : Acceptable seen (fs ++ gs)) :
    Acceptable seen fs := by
  induction fs generalizing seen with
  | nil => trivial
  | cons f fs ih => exact ⟨h.1, h.2.1, ih h.2.2⟩

/-- The first function that cannot be built ends the work, and the error names it. -/
structure Fails (path : Text) (seen : List Text) (fs : List FuncDoc) (e : FixtureError)
    (before : List FuncDoc) : Prop where
  failing : ∃ f rest, fs = before ++ f :: rest ∧ ¬Acceptable seen (before ++ [f]) ∧
    (e.cause = .duplicateFunction f.name ∨ ∃ flaw, e.cause = .inFunction f.name flaw)
  acceptable : Acceptable seen before
  path : e.path = path

theorem run_buildFuncs_cons {fn : Func} (hseen : f.name ∉ seen) (hf : f.build = .ok fn) :
    (buildFuncs path seen (f :: fs)).run st =
      match (buildFuncs path (f.name :: seen) fs).run (st.loaded [f]) with
      | (.ok fns, t) => (.ok (fn :: fns), t)
      | (.error e, t) => (.error e, t) := by
  have hcount : st.loaded [f] =
      { st with funcs := st.funcs + 1, blocks := st.blocks + fn.blocks.length } := by
    simp [Stats.loaded, (FuncDoc.build_describes hf).length]
  rw [hcount, buildFuncs, if_neg hseen]
  simp only [hf]
  rw [run_bind]
  show (buildFuncs path (f.name :: seen) fs >>= fun fns => pure (fn :: fns)).run _ = _
  rw [run_bind]
  rcases (buildFuncs path (f.name :: seen) fs).run _ with ⟨e | fns, t⟩ <;> rfl

/-- What building functions comes to: all of them, or those before the first that fails. -/
theorem buildFuncs_cases (path : Text) (seen : List Text) (fs : List FuncDoc) (st : Stats) :
    (∃ fns, (buildFuncs path seen fs).run st = (.ok fns, st.loaded fs) ∧ Acceptable seen fs) ∨
    ∃ e before, (buildFuncs path seen fs).run st = (.error e, st.loaded before) ∧
      Fails path seen fs e before := by
  induction fs generalizing seen st with
  | nil => exact .inl ⟨[], rfl, trivial⟩
  | cons f fs ih =>
    by_cases hseen : f.name ∈ seen
    · refine .inr ⟨⟨path, f.line, .duplicateFunction f.name⟩, [], ?_, ?_⟩
      · rw [buildFuncs, if_pos hseen]
        rfl
      · exact ⟨⟨f, fs, rfl, fun h => h.1 hseen, .inl rfl⟩, trivial, rfl⟩
    cases hf : f.build with
    | error e =>
      refine .inr ⟨⟨path, e.line, .inFunction f.name e.flaw⟩, [], ?_, ?_⟩
      · rw [buildFuncs, if_neg hseen, hf]
        rfl
      · refine ⟨⟨f, fs, rfl, fun h => ?_, .inr ⟨e.flaw, rfl⟩⟩, trivial, rfl⟩
        obtain ⟨fn, hfn⟩ := FuncDoc.exists_build_ok.mpr h.2.1
        rw [hf] at hfn
        cases hfn
    | ok fn =>
      have hwf : f.WellFormed := FuncDoc.exists_build_ok.mp ⟨fn, hf⟩
      have hloaded : ∀ before, (st.loaded [f]).loaded before = st.loaded (f :: before) := by
        intro before
        simp [Stats.loaded, Nat.add_assoc, Nat.add_comm 1]
      rw [run_buildFuncs_cons hseen hf]
      rcases ih (f.name :: seen) (st.loaded [f]) with
        ⟨fns, hrun, hok⟩ | ⟨e, before, hrun, hfails⟩
      · refine .inl ⟨fn :: fns, ?_, ⟨hseen, hwf, hok⟩⟩
        rw [hrun, hloaded]
      · refine .inr ⟨e, f :: before, ?_, ?_⟩
        · rw [hrun, hloaded]
        · obtain ⟨⟨g, rest, hsplit, hbad, hcause⟩, hgood, hpath⟩ := hfails
          exact ⟨⟨g, rest, by rw [hsplit]; rfl, fun h => hbad h.2.2, hcause⟩,
            ⟨hseen, hwf, hgood⟩, hpath⟩

/-- Functions of distinct names are built one by one. -/
theorem build_eq_ok_iff {d : Document} {fns : List Func} :
    ((d.build path).run st).1 = .ok fns ↔ (d.functions.map FuncDoc.name).Nodup ∧
      List.Forall₂ (fun f fn => f.build = .ok fn) d.functions fns := by
  rcases buildFuncs_cases path [] d.functions st with
    ⟨fns', hrun, hacc⟩ | ⟨e, before, hrun, ⟨f, rest, hsplit, hbad, -⟩, -, -⟩
  · have hfns' := buildFuncs_built hrun
    rw [build, hrun]
    constructor
    · intro h
      cases h
      exact ⟨(acceptable_iff.mp hacc).2, hfns'⟩
    · intro h
      have hfns := (mapM_eq_ok_iff.mpr hfns').symm.trans (mapM_eq_ok_iff.mpr h.2)
      exact congrArg Except.ok (Except.ok.inj hfns)
  · rw [build, hrun]
    refine iff_of_false (fun h => by cases h) fun h => hbad ?_
    have hacc : Acceptable [] d.functions := by
      refine acceptable_iff.mpr ⟨fun g hg => ⟨List.not_mem_nil, ?_⟩, h.1⟩
      exact FuncDoc.exists_build_ok.mp (exists_mapM_ok.mp ⟨fns, mapM_eq_ok_iff.mpr h.2⟩ g hg)
    rw [hsplit, List.append_cons] at hacc
    exact hacc.of_append

end Document

/-! ## Fields that do not count -/

namespace OpDoc

/-- The operation with nothing in the fields that do not count for its kind. -/
def relevant (o : OpDoc) : OpDoc :=
  if o.kind = "jump" then { kind := o.kind, line := o.line, target := o.target }
  else if o.kind = "jumpif" then
    { kind := o.kind, line := o.line, cond := o.cond, onTrue := o.onTrue, onFalse := o.onFalse }
  else if o.kind = "switch" then
    { kind := o.kind, line := o.line, cond := o.cond, cases := o.cases, default := o.default }
  else if o.kind = "try" then
    { kind := o.kind, line := o.line, body := o.body, handlers := o.handlers, last := o.last }
  else if o.kind = "expr" then
    { kind := o.kind, line := o.line, name := o.name, result := o.result, args := o.args }
  else if o.kind = "return" then { kind := o.kind, line := o.line, value := o.value }
  else { kind := o.kind, line := o.line }

theorem relevant_spec (o : OpDoc) : o.relevant.line = o.line ∧
    o.relevant.valueNames = o.valueNames ∧ ∀ s, o.relevant.build s = o.build s := by
  unfold relevant valueNames build
  by_cases hjump : o.kind = "jump"
  · simp only [if_pos hjump, implies_true, and_self]
  by_cases hbranch : o.kind = "jumpif"
  · simp only [if_neg hjump, if_pos hbranch, implies_true, and_self]
  by_cases hswitch : o.kind = "switch"
  · simp only [if_neg hjump, if_neg hbranch, if_pos hswitch, implies_true, and_self]
  by_cases hregion : o.kind = "try"
  · simp only [if_neg hjump, if_neg hbranch, if_neg hswitch, if_pos hregion, implies_true, and_self]
  by_cases hexpr : o.kind = "expr"
  · simp only [if_neg hjump, if_neg hbranch, if_neg hswitch, if_neg hregion, if_pos hexpr,
      implies_true, and_self]
  by_cases hret : o.kind = "return"
  · simp only [if_neg hjump, if_neg hbranch, if_neg hswitch, if_neg hregion, if_neg hexpr,
      if_pos hret, implies_true, and_self]
  simp only [if_neg hjump, if_neg hbranch, if_neg hswitch, if_neg hregion, if_neg hexpr,
    if_neg hret, implies_true, and_self]

end OpDoc

def BlockDoc.relevant (b : BlockDoc) : BlockDoc := { b with ops := b.ops.map OpDoc.relevant }

def FuncDoc.relevant (f : FuncDoc) : FuncDoc := { f with blocks := f.blocks.map BlockDoc.relevant }

def Document.relevant (d : Document) : Document where
  functions := d.functions.map FuncDoc.relevant

theorem BlockDoc.fill_relevant (s : Scope) (fn : Func) (b : BlockRef) (d : BlockDoc) :
    d.relevant.fill s fn b = d.fill s fn b := by
  have hop : ∀ g o, addOp s b g o.relevant = addOp s b g o := by
    intro g o
    obtain ⟨hline, -, hbuild⟩ := o.relevant_spec
    simp only [addOp, hline, hbuild]
  simp only [fill, relevant, List.foldlM_map, hop]

theorem FuncDoc.checkLabels_relevant (seen : List Text) (bs : List BlockDoc) :
    checkLabels seen (bs.map BlockDoc.relevant) = checkLabels seen bs := by
  induction bs generalizing seen with
  | nil => rfl
  | cons b bs ih => simp only [List.map_cons, checkLabels, ih, BlockDoc.relevant]

theorem FuncDoc.scope_relevant (f : FuncDoc) : f.relevant.scope = f.scope := by
  have hnames : ∀ b : BlockDoc, b.relevant.valueNames = b.valueNames := by
    intro b
    simp only [BlockDoc.valueNames, BlockDoc.relevant, List.flatMap_map,
      (OpDoc.relevant_spec _).2.1]
  simp only [scope, relevant, List.map_map, List.flatMap_map, hnames]
  rfl

theorem FuncDoc.build_relevant (f : FuncDoc) : f.relevant.build = f.build := by
  have hentry : f.relevant.entryBlock = f.entryBlock := by
    simp only [entryBlock, scope_relevant]
    rfl
  simp only [build, hentry, scope_relevant]
  simp only [relevant, List.isEmpty_map, List.length_map, checkLabels_relevant, List.zipIdx_map,
    List.foldlM_map, Prod.map_fst, Prod.map_snd, id, BlockDoc.fill_relevant]

theorem Document.buildFuncs_relevant (path : Text) (seen : List Text) (fs : List FuncDoc) :
    buildFuncs path seen (fs.map FuncDoc.relevant) = buildFuncs path seen fs := by
  induction fs generalizing seen with
  | nil => rfl
  | cons f fs ih =>
    simp only [List.map_cons, buildFuncs, FuncDoc.build_relevant, ih]
    rfl

/-! ## The exact conditions -/

/-- A document is accepted exactly if it is well formed, and fields that do not count for the kind
of an operation make no difference. The counters grow with the functions that were built: all of
them, or those before the first that cannot be built. -/
theorem build_accepts_exactly_well_formed (path : Text) (d : Document) (st : Stats) :
    ((∃ fns, ((d.build path).run st).1 = .ok fns) ↔ d.WellFormed) ∧
      (∀ d' : Document, d'.relevant = d.relevant → (d'.build path).run st = (d.build path).run st) ∧
      (∀ fns st', (d.build path).run st = (.ok fns, st') → st' = st.loaded d.functions) ∧
      ∀ e st', (d.build path).run st = (.error e, st') → ∃ before f rest,
        d.functions = before ++ f :: rest ∧ st' = st.loaded before ∧
          (⟨before⟩ : Document).WellFormed ∧ ¬(⟨before ++ [f]⟩ : Document).WellFormed ∧
          (e.cause = .duplicateFunction f.name ∨ ∃ flaw, e.cause = .inFunction f.name flaw) := by
  have hwf := d.wellFormed_iff_acceptable
  refine ⟨?_, fun d' hd' => ?_, ?_⟩
  · rcases Document.buildFuncs_cases path [] d.functions st with
      ⟨fns, hrun, hok⟩ | ⟨e, before, hrun, ⟨f, rest, hsplit, hbad, -⟩, -, -⟩
    · exact iff_of_true ⟨fns, by rw [Document.build, hrun]⟩ (hwf.mpr hok)
    · refine iff_of_false (fun h => ?_) fun h => hbad ?_
      · obtain ⟨fns, h⟩ := h
        rw [Document.build, hrun] at h
        cases h
      · have hacc := hwf.mp h
        rw [hsplit, List.append_cons] at hacc
        exact hacc.of_append
  · have hfuncs : ∀ d : Document, d.build path = d.relevant.build path :=
      fun d => (Document.buildFuncs_relevant path [] d.functions).symm
    rw [hfuncs d', hd', ← hfuncs d]
  · rcases Document.buildFuncs_cases path [] d.functions st with
      ⟨fns, hrun, -⟩ | ⟨e, before, hrun, ⟨f, rest, hsplit, hbad, hcause⟩, hgood, -⟩
    · rw [Document.build, hrun]
      refine ⟨fun fns' st' h => ?_, fun e st' h => ?_⟩ <;> cases h
      rfl
    · rw [Document.build, hrun]
      refine ⟨fun fns' st' h => ?_, fun e' st' h => ?_⟩ <;> cases h
      refine ⟨before, f, rest, hsplit, rfl, ?_, fun h => hbad ?_, hcause⟩
      · exact (Document.wellFormed_iff_acceptable _).mpr hgood
      · exact (Document.wellFormed_iff_acceptable _).mp h

/-- The jump of the second function lacks a target; that of the first has a condition and a name
besides, which do not count. -/
def secondLacksTarget : Document where
  functions := [
    { name := "f", blocks := [
      { label := "a", ops := [{ kind := "jump", target := "b", cond := "x", name := "y" }] },
      { label := "b", phis := [{ result := "r", operands := ["", "r"] }] }] },
    { name := "g", entry := "a", blocks := [{ label := "a", ops := [{ kind := "jump" }] }] }]

theorem secondLacksTarget_rejected : ¬secondLacksTarget.WellFormed ∧
    ∃ before f rest, secondLacksTarget.functions = before ++ f :: rest ∧
      ({ funcs := 1, blocks := 2 } : Stats) = Stats.loaded {} before ∧
      (⟨before⟩ : Document).WellFormed ∧ ¬(⟨before ++ [f]⟩ : Document).WellFormed ∧
      f.name = ("g" : Text) := by
  have hrun : (secondLacksTarget.build "f.yaml").run {} =
      (.error ⟨"f.yaml", 0, .inFunction "g" .jumpWithoutTarget⟩, { funcs := 1, blocks := 2 }) :=
    Prod.ext (by decide +kernel) (by decide +kernel)
  obtain ⟨hiff, -, -, hfail⟩ := build_accepts_exactly_well_formed "f.yaml" secondLacksTarget {}
  obtain ⟨before, f, rest, hsplit, hst, hgood, hbad, hcause⟩ := hfail _ _ hrun
  refine ⟨fun h => ?_, before, f, rest, hsplit, hst, hgood, hbad, ?_⟩
  · obtain ⟨fns, hfns⟩ := hiff.mpr h
    rw [hrun] at hfns
    cases hfns
  · rcases hcause with hcause | ⟨flaw, hcause⟩
    · cases hcause
    · injection hcause with hname
      exact hname.symm

end FlowGraph
