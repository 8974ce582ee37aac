import Mathlib
import FlowGraph.Document.Build
import FlowGraph.Proofs.Edges
import FlowGraph.Proofs.Elementwise
import FlowGraph.Proofs.Ensures

/-! What holds of every function that a document describes: each operation has one owner, every
jump leads somewhere, references stay inside the function, and the parents of a block are the
blocks that refer to it. The invariant is kept by each phi node and each operation that is put
in, so it holds of the finished function. -/

namespace FlowGraph

theorem run_bind_eq_ok {ε σ α β : Type} {x : ExceptT ε (StateM σ) α}
    {f : α → ExceptT ε (StateM σ) β} {s t : σ} {b : β} (h : (x >>= f).run s = (.ok b, t)) :
    ∃ a u, x.run s = (.ok a, u) ∧ (f a).run u = (.ok b, t) := by
  rw [run_bind] at h
  rcases hx : x.run s with ⟨e | a, u⟩
  · rw [hx] at h
    cases h
  · rw [hx] at h
    exact ⟨a, u, rfl, h⟩

/-! ## Operations as documents describe them -/

theorem KeyMap.mem_ofList {α : Type} {e : Int64 × α} {l : List (Int64 × α)}
    (h : e ∈ (KeyMap.ofList l).entries) : e ∈ l := by
  rcases mem_foldl_insert l .empty h with h | h
  · cases h
  · exact h

theorem Scope.block_lt {s : Scope} {label : Text} {b : BlockRef}
    (h : s.block label = .ok (some b)) : b < s.labels.length := by
  unfold Scope.block at h
  split at h
  · cases h
  · split at h
    · rename_i i hi
      cases h
      exact (List.findIdx?_eq_some_iff_getElem.mp hi).1
    · cases h

/-- The references of a slot are blocks that have a label. -/
def Slot.Within (n : Nat) (s : Slot) : Prop := ∀ t ∈ s.targets, ∀ b, t.block = some b → b < n

theorem Slot.within_single {s : Scope} {label : Text} {b : Option BlockRef}
    (h : s.block label = .ok b) : (Slot.single b).Within s.labels.length := by
  intro t ht b' hb'
  simp only [Slot.targets, List.mem_singleton] at ht
  subst ht
  simp only at hb'
  exact Scope.block_lt (hb' ▸ h)

theorem Slot.within_list {s : Scope} {labels : List Text} {bs : List (Option BlockRef)}
    (h : labels.mapM s.block = .ok bs) : (Slot.list bs).Within s.labels.length := by
  intro t ht b hb
  simp only [Slot.targets, List.mem_map, Prod.exists] at ht
  obtain ⟨t', i, hi, rfl⟩ := ht
  obtain ⟨l, -, hl⟩ := mem_of_mapM_ok h t' (List.fst_mem_of_mem_zipIdx hi)
  simp only at hb
  exact Scope.block_lt (hb ▸ hl)

theorem Slot.within_keyed {s : Scope} {m : KeyMap Text} {m' : KeyMap (Option BlockRef)}
    (h : s.cases m = .ok m') : (Slot.keyed m'.made?).Within s.labels.length := by
  intro t ht b hb
  obtain ⟨es, hes, h⟩ := bind_eq_ok.mp h
  cases h
  simp only [Slot.targets, KeyMap.getD_made?, List.mem_map] at ht
  obtain ⟨e, he, rfl⟩ := ht
  obtain ⟨x, -, hx⟩ := mem_of_mapM_ok hes e (KeyMap.mem_ofList he)
  obtain ⟨y, hy, hx⟩ := bind_eq_ok.mp hx
  cases hx
  simp only at hb
  exact Scope.block_lt (hb ▸ hy)

/-- An operation of a document refers to labelled blocks, and if it is a jump it leads
somewhere. -/
structure Op.Described (n : Nat) (op : Op) : Prop where
  within : ∀ a ∈ op.attributes, a.slot.Within n
  jump : op.isJump = true → ∃ t, op = .jump (some t)

namespace OpDoc

variable {s : Scope} {o : OpDoc} {op : Op}

/-- What a description of each kind makes of what it names. -/
inductive Builds (s : Scope) (o : OpDoc) : Op → Prop
  | jump {t : Option BlockRef} : o.kind = "jump" → o.target ≠ [] → s.block o.target = .ok t →
      Builds s o (.jump t)
  | branch {t f : Option BlockRef} : o.kind = "jumpif" → s.block o.onTrue = .ok t →
      s.block o.onFalse = .ok f → Builds s o (.branch (s.value o.cond) t f)
  | switch {m : KeyMap (Option BlockRef)} {d : Option BlockRef} : o.kind = "switch" →
      s.cases o.cases = .ok m → s.block o.default = .ok d →
      Builds s o (.switch (s.value o.cond) m.made? d)
  | region {b l : Option BlockRef} {hs : List (Option BlockRef)} : o.kind = "try" →
      s.block o.body = .ok b → o.handlers.mapM s.block = .ok hs → s.block o.last = .ok l →
      Builds s o (.region b hs l)
  | expr : o.kind = "expr" → Builds s o (.expr o.name (s.value o.result) (o.args.map s.value))
  | ret : o.kind = "return" → Builds s o (.ret (s.value o.value))

theorem builds_of_build_eq_ok (h : o.build s = .ok op) : o.Builds s op := by
  unfold build at h
  split_ifs at h with hk hne hk hk hk hk hne hk
  · obtain ⟨t, ht, h⟩ := bind_eq_ok.mp h
    cases h
    exact .jump hk (by simpa using hne) ht
  · obtain ⟨t, ht, h⟩ := bind_eq_ok.mp h
    obtain ⟨f, hf, h⟩ := bind_eq_ok.mp h
    cases h
    exact .branch hk ht hf
  · obtain ⟨m, hm, h⟩ := bind_eq_ok.mp h
    obtain ⟨d, hd, h⟩ := bind_eq_ok.mp h
    cases h
    exact .switch hk hm hd
  · obtain ⟨b, hb, h⟩ := bind_eq_ok.mp h
    obtain ⟨hs, hhs, h⟩ := bind_eq_ok.mp h
    obtain ⟨l, hl, h⟩ := bind_eq_ok.mp h
    cases h
    exact .region hk hb hhs hl
  · cases h
    exact .expr hk
  · cases h
    exact .ret hk

theorem build_described (h : o.build s = .ok op) : op.Described s.labels.length := by
  cases builds_of_build_eq_ok h with
  | jump _ hne ht =>
    refine ⟨by simpa [Op.attributes] using Slot.within_single ht, fun _ => ?_⟩
    unfold Scope.block at ht
    rw [if_neg (by simpa using hne)] at ht
    split at ht <;> cases ht
    exact ⟨_, rfl⟩
  | branch _ ht hf =>
    refine ⟨?_, by simp [Op.isJump]⟩
    simpa [Op.attributes] using ⟨Slot.within_single ht, Slot.within_single hf⟩
  | switch _ hm hd =>
    refine ⟨?_, by simp [Op.isJump]⟩
    simpa [Op.attributes] using ⟨Slot.within_keyed hm, Slot.within_single hd⟩
  | region _ hb hhs hl =>
    refine ⟨?_, by simp [Op.isJump]⟩
    simpa [Op.attributes] using
      ⟨Slot.within_single hb, Slot.within_list hhs, Slot.within_single hl⟩
  | expr => exact ⟨by simp [Op.attributes], by simp [Op.isJump]⟩
  | ret => exact ⟨by simp [Op.attributes], by simp [Op.isJump]⟩

end OpDoc

theorem Op.Described.lt {n : Nat} {op : Op} {i j : Nat} {k : Int} {b : BlockRef}
    (h : op.Described n) (hs : op.slot? i j = some ⟨k, some b⟩) : b < n := by
  obtain ⟨a, ha, hj⟩ := Option.bind_eq_some_iff.mp hs
  exact h.within a (List.mem_of_getElem? ha) _ (List.mem_of_getElem? hj) b rfl

/-! ## Blocks and edges of a described function -/

/-- Edges, parents and marks of a function in which nothing has been eliminated. -/
structure Func.Wired (fn : Func) : Prop where
  jump : ∀ o, (fn.op o).isJump = true → ∃ t, fn.op o = .jump (some t)
  bound : ∀ o i j k t, fn.slot? o i j = some ⟨k, some t⟩ → t < fn.blocks.length
  live : ∀ b, (fn.block b).dead = false
  opLt : ∀ b, ∀ o ∈ (fn.block b).ops, o < fn.ops.length
  owner : ∀ b c o, o ∈ (fn.block b).ops → o ∈ (fn.block c).ops → b = c
  parents : ∀ b p, p ∈ (fn.block b).parents ↔ ∃ q, p = some q ∧ fn.Refers q b
  nodup : ∀ b, (fn.block b).parents.Nodup

namespace Func

variable {fn : Func} {b c : BlockRef}

theorem newBlocks_numbered (n : Nat) : ∀ fn : Func, fn.newBlocks n = { fn with
    blocks := fn.blocks ++ (List.range n).map fun i => { id := fn.blocks.length + i + 1 }
    entry := (fn.newBlocks n).entry } := by
  induction n with
  | zero => intro fn; simp [newBlocks]
  | succ n ih =>
    intro fn
    rw [newBlocks, ih, List.range_succ_eq_map]
    simp only [newBlock, List.append_assoc, List.singleton_append, List.map_cons, List.map_map,
      List.length_append, List.length_singleton, Function.comp_def]
    grind

theorem wired_empty (hops : fn.ops = [])
    (h : ∀ bb ∈ fn.blocks, bb.ops = [] ∧ bb.parents = [] ∧ bb.dead = false) : fn.Wired := by
  have hop : ∀ o, fn.op o = default := by simp [Func.op, hops]
  have hblock : ∀ b, (fn.block b).ops = [] ∧ (fn.block b).parents = [] ∧
      (fn.block b).dead = false := by
    intro b
    simp only [block, List.getD_eq_getElem?_getD]
    cases hb : fn.blocks[b]? with
    | none => simp
    | some bb => exact h bb (List.mem_of_getElem? hb)
  refine ⟨?_, ?_, fun b => (hblock b).2.2, ?_, ?_, ?_, ?_⟩
  · intro o ho
    rw [hop] at ho
    cases ho
  · intro o i j k t hs
    rw [slot?, hop] at hs
    simp [default, Op.slot?, Op.attributes] at hs
  · intro b o ho
    simp [hblock b] at ho
  · intro b c o ho
    simp [hblock b] at ho
  · intro b p
    simp [hblock b, Refers, fun q => (hblock q).1]
  · intro b
    simp [hblock b]

/-- Making a block a parent of several blocks. -/
theorem foldl_addParent (ts : List BlockRef) (p : Option BlockRef) : ∀ fn : Func,
    (∀ t ∈ ts, t < fn.blocks.length) →
    let fn' := ts.foldl (fun fn t => fn.addParent t p) fn
    fn'.ops = fn.ops ∧ fn'.blocks.length = fn.blocks.length ∧
      (∀ c, (fn'.block c).ops = (fn.block c).ops ∧ (fn'.block c).dead = (fn.block c).dead) ∧
      (∀ c q, q ∈ (fn'.block c).parents ↔ q ∈ (fn.block c).parents ∨ (c ∈ ts ∧ q = p)) ∧
      ∀ c, (fn.block c).parents.Nodup → (fn'.block c).parents.Nodup := by
  induction ts with
  | nil => intro fn _; simp
  | cons t ts ih =>
    intro fn hts
    have ht : t < fn.blocks.length := hts t (by simp)
    have hsame := alike_addParent fn t p
    obtain ⟨hops, hlen, hkeep, hmem, hnodup⟩ := ih (fn.addParent t p) (by
      intro t' ht'
      rw [hsame.blocks]
      exact hts t' (by simp [ht']))
    refine ⟨hops, hlen.trans hsame.blocks, ?_, ?_, fun c hc => hnodup c (nodup_addParent hc)⟩
    · intro c
      exact ⟨(hkeep c).1.trans (hsame.blockOps c), (hkeep c).2.trans (dead_addParent p)⟩
    · intro c q
      rw [List.foldl_cons, hmem, mem_addParent ht]
      grind

theorem op_newOp (fn : Func) (op : Op) (o : OpRef) :
    (fn.newOp op).1.op o = if o = fn.ops.length then op else fn.op o := by
  simp only [newOp, Func.op, List.getD_eq_getElem?_getD, List.getElem?_append]
  rcases Nat.lt_trichotomy o fn.ops.length with hlt | he | hgt
  · simp [hlt, Nat.ne_of_lt hlt]
  · simp [he]
  · have hle := Nat.le_of_lt hgt
    have hout : [op][o - fn.ops.length]? = none :=
      List.getElem?_eq_none (Nat.le_sub_of_add_le' hgt)
    simp [Nat.not_lt.mpr hle, Nat.ne_of_gt hgt, hout]

/-- The operation `op` stands at the end of the block `b`, and the blocks that it refers to have
`b` as a parent. -/
structure Appended (b : BlockRef) (op : Op) (fn fn' : Func) : Prop where
  blocks : fn'.blocks.length = fn.blocks.length
  ops : fn'.ops.length = fn.ops.length + 1
  opAt : ∀ o, fn'.op o = if o = fn.ops.length then op else fn.op o
  blockOps : ∀ c o, o ∈ (fn'.block c).ops ↔ o ∈ (fn.block c).ops ∨ (c = b ∧ o = fn.ops.length)
  dead : ∀ c, (fn'.block c).dead = (fn.block c).dead
  parents : ∀ c q, q ∈ (fn'.block c).parents ↔
    q ∈ (fn.block c).parents ∨ (c ∈ op.blocks ∧ q = some b)
  nodup : ∀ c, (fn.block c).parents.Nodup → (fn'.block c).parents.Nodup

theorem appendOp_appended {op : Op} (hb : b < fn.blocks.length)
    (hts : ∀ t ∈ op.blocks, t < fn.blocks.length) :
    Appended b op fn ((fn.newOp op).1.appendOp b (fn.newOp op).2) := by
  let r := fn.ops.length
  let fn₁ := (fn.newOp op).1.modifyBlock b fun bb => { bb with ops := bb.ops ++ [r] }
  have hop₁ : ∀ o, fn₁.op o = if o = r then op else fn.op o := op_newOp fn op
  have hlen₁ : fn₁.blocks.length = fn.blocks.length := by simp [fn₁, modifyBlock, newOp]
  have hblock₁ : ∀ c, fn₁.block c =
      if c = b then { fn.block b with ops := (fn.block b).ops ++ [r] } else fn.block c :=
    block_modifyBlock_of_lt (fn.newOp op).1 hb _
  have happ : (fn.newOp op).1.appendOp b (fn.newOp op).2 =
      op.blocks.foldl (fun fn t => fn.addParent t (some b)) fn₁ := by
    have hr : fn₁.op r = op := by simp [hop₁]
    change (fn₁.op r).blocks.foldl _ fn₁ = _
    rw [hr]
  obtain ⟨hops₂, hlen₂, hkeep, hmem, hnodup⟩ :=
    foldl_addParent op.blocks (some b) fn₁ (by rw [hlen₁]; exact hts)
  have hparents₁ : ∀ c, (fn₁.block c).parents = (fn.block c).parents := by
    intro c
    rw [hblock₁]
    split
    · rename_i hc; subst hc; rfl
    · rfl
  rw [happ]
  refine ⟨hlen₂.trans hlen₁, ?_, ?_, ?_, ?_, ?_, ?_⟩
  · rw [hops₂]
    simp [fn₁, modifyBlock, newOp]
  · intro o
    rw [Func.op, hops₂]
    exact hop₁ o
  · intro c o
    rw [(hkeep c).1, hblock₁]
    split
    · rename_i hc; simp [hc, r]
    · rename_i hc; simp [hc]
  · intro c
    rw [(hkeep c).2, hblock₁]
    split
    · rename_i hc; subst hc; rfl
    · rfl
  · intro c q
    rw [hmem, hparents₁]
  · intro c hc
    exact hnodup c (by rw [hparents₁]; exact hc)

namespace Appended

variable {fn' : Func} {op : Op}

theorem slot? (h : Appended b op fn fn') (o : OpRef) (i j : Nat) :
    fn'.slot? o i j = if o = fn.ops.length then op.slot? i j else fn.slot? o i j := by
  rw [Func.slot?, h.opAt]
  split <;> rfl

theorem refers_iff (h : Appended b op fn fn') (hw : fn.Wired) (q : BlockRef) :
    fn'.Refers q c ↔ fn.Refers q c ∨ (q = b ∧ c ∈ op.blocks) := by
  -- an operation of the old function is never the new one
  have hold : ∀ o ∈ (fn.block q).ops, o ≠ fn.ops.length := fun o ho => Nat.ne_of_lt (hw.opLt q o ho)
  simp only [Refers, h.blockOps, Op.mem_blocks_iff]
  constructor
  · rintro ⟨o, ho | ⟨rfl, rfl⟩, i, j, k, hs⟩
    · rw [h.slot?, if_neg (hold o ho)] at hs
      exact .inl ⟨o, ho, i, j, k, hs⟩
    · rw [h.slot?, if_pos rfl] at hs
      exact .inr ⟨rfl, i, j, k, hs⟩
  · rintro (⟨o, ho, i, j, k, hs⟩ | ⟨rfl, i, j, k, hs⟩)
    · exact ⟨o, .inl ho, i, j, k, by rw [h.slot?, if_neg (hold o ho)]; exact hs⟩
    · exact ⟨fn.ops.length, .inr ⟨rfl, rfl⟩, i, j, k, by rw [h.slot?, if_pos rfl]; exact hs⟩

theorem wired (h : Appended b op fn fn') (hw : fn.Wired) (hop : op.Described fn.blocks.length) :
    fn'.Wired := by
  have hold : ∀ c, ∀ o ∈ (fn.block c).ops, o ≠ fn.ops.length :=
    fun c o ho => Nat.ne_of_lt (hw.opLt c o ho)
  refine ⟨?_, ?_, ?_, ?_, ?_, ?_, ?_⟩
  · intro o ho
    rw [h.opAt] at ho ⊢
    split at ho
    · rename_i hr; rw [if_pos hr]; exact hop.jump ho
    · rename_i hr; rw [if_neg hr]; exact hw.jump o ho
  · intro o i j k t hs
    rw [h.slot?] at hs
    rw [h.blocks]
    split at hs
    · exact hop.lt hs
    · exact hw.bound o i j k t hs
  · intro c
    exact (h.dead c).trans (hw.live c)
  · intro c o ho
    rw [h.ops]
    rcases (h.blockOps c o).mp ho with ho | ⟨-, rfl⟩
    · exact Nat.lt_succ_of_lt (hw.opLt c o ho)
    · exact Nat.lt_succ_self _
  · intro c c' o ho ho'
    rcases (h.blockOps c o).mp ho with ho | ⟨rfl, hr⟩ <;>
      rcases (h.blockOps c' o).mp ho' with ho' | ⟨rfl, hr'⟩
    · exact hw.owner c c' o ho ho'
    · exact absurd hr' (hold c o ho)
    · exact absurd hr (hold c' o ho')
    · rfl
  · intro c p
    rw [h.parents, hw.parents]
    simp only [h.refers_iff hw]
    grind
  · intro c
    exact h.nodup c (hw.nodup c)

end Appended

/-- Putting a described operation at the end of a block keeps the wiring. -/
theorem Wired.appendOp {op : Op} (h : fn.Wired) (hb : b < fn.blocks.length)
    (hop : op.Described fn.blocks.length) :
    ((fn.newOp op).1.appendOp b (fn.newOp op).2).Wired ∧
      ((fn.newOp op).1.appendOp b (fn.newOp op).2).blocks.length = fn.blocks.length := by
  have happ : Appended b op fn ((fn.newOp op).1.appendOp b (fn.newOp op).2) := by
    refine appendOp_appended hb fun t ht => ?_
    obtain ⟨i, j, k, hs⟩ := Op.mem_blocks_iff.mp ht
    exact hop.lt hs
  exact ⟨happ.wired h hop, happ.blocks⟩

theorem Wired.addPhi {phi : Phi} (h : fn.Wired) :
    ((fn.newPhi phi).1.modifyBlock b fun bb =>
      { bb with phis := bb.phis ++ [(fn.newPhi phi).2] }).Wired := by
  let fn' := (fn.newPhi phi).1.modifyBlock b fun bb =>
    { bb with phis := bb.phis ++ [(fn.newPhi phi).2] }
  have hlen : fn'.blocks.length = fn.blocks.length := by simp [fn', modifyBlock, newPhi]
  have hblock : ∀ c, (fn'.block c).ops = (fn.block c).ops ∧
      (fn'.block c).dead = (fn.block c).dead ∧ (fn'.block c).parents = (fn.block c).parents := by
    intro c
    simp only [fn', block_modifyBlock]
    split <;> exact ⟨rfl, rfl, rfl⟩
  have hrefers : ∀ q c, fn'.Refers q c ↔ fn.Refers q c := by
    intro q c
    simp only [Refers, (hblock q).1]
    rfl
  refine ⟨h.jump, ?_, ?_, ?_, ?_, ?_, ?_⟩
  · intro o i j k t hs
    exact hlen ▸ h.bound o i j k t hs
  · intro c
    exact (hblock c).2.1.trans (h.live c)
  · intro c o ho
    exact h.opLt c o ((hblock c).1 ▸ ho)
  · intro c c' o ho ho'
    exact h.owner c c' o ((hblock c).1 ▸ ho) ((hblock c').1 ▸ ho')
  · intro c p
    have hc := (hblock c).2.2
    simp only [fn'] at hc hrefers
    simp only [hc, hrefers, h.parents]
  · intro c
    have hc := (hblock c).2.2
    simp only [fn'] at hc
    exact hc ▸ h.nodup c

/-- What a document promises of a function. -/
structure Loaded (fn : Func) : Prop extends fn.Wired where
  entry : ∃ e, fn.entry = some e ∧ e < fn.blocks.length

end Func

theorem BlockDoc.fill_wired {s : Scope} {d : BlockDoc} {b : BlockRef} {fn fn' : Func}
    (hs : s.labels.length = fn.blocks.length) (hb : b < fn.blocks.length) (h : fn.Wired)
    (hfill : d.fill s fn b = .ok fn') :
    fn'.Wired ∧ fn'.blocks.length = fn.blocks.length ∧ fn'.entry = fn.entry := by
  obtain ⟨fn₁, hphis, hops⟩ := bind_eq_ok.mp hfill
  -- neither step allocates a block, so the labels keep fitting the blocks
  let P (g : Func) : Prop := g.Wired ∧ g.blocks.length = fn.blocks.length ∧ g.entry = fn.entry
  have h₁ : P fn₁ := by
    refine foldlM_keeps (P := P) ?_ ⟨h, rfl, rfl⟩ hphis
    rintro p - g g' ⟨hg, hlen, hentry⟩ hstep
    obtain ⟨phi, -, hstep⟩ := bind_eq_ok.mp hstep
    cases hstep
    exact ⟨hg.addPhi, by simpa [Func.modifyBlock, Func.newPhi] using hlen, hentry⟩
  refine foldlM_keeps (P := P) ?_ h₁ hops
  rintro o - g g' ⟨hg, hlen, hentry⟩ hstep
  obtain ⟨op, hop, hstep⟩ := bind_eq_ok.mp hstep
  cases hstep
  have hdesc := OpDoc.build_described (mapError_eq_ok.mp hop)
  rw [hs, ← hlen] at hdesc
  obtain ⟨hw, hl⟩ := hg.appendOp (hlen ▸ hb) hdesc
  refine ⟨hw, hl.trans hlen, Eq.trans ?_ hentry⟩
  have hkeep : ∀ (ts : List BlockRef) (g : Func),
      (ts.foldl (fun fn t => fn.addParent t (some b)) g).entry = g.entry := by
    intro ts
    induction ts with
    | nil => intro g; rfl
    | cons t ts ih => intro g; rw [List.foldl_cons, ih]; rfl
  exact hkeep _ _

namespace FuncDoc

variable {f : FuncDoc} {fn : Func} {e : BlockRef}

/-- The function before any block is filled. -/
def start (f : FuncDoc) (e : BlockRef) : Func :=
  { ({ name := f.name, values := f.scope.values } : Func).newBlocks f.blocks.length with
    entry := some e }

theorem start_eq : f.start e = {
    name := f.name
    values := f.scope.values
    entry := some e
    blocks := (List.range f.blocks.length).map fun i : Nat => { id := i + 1 } } := by
  rw [start, Func.newBlocks_numbered]
  simp

theorem build_eq_ok_iff : f.build = .ok fn ↔ f.blocks ≠ [] ∧ checkLabels [] f.blocks = .ok () ∧
    ∃ e, f.entryBlock = .ok e ∧
      f.blocks.zipIdx.foldlM (fun fn x => x.1.fill f.scope fn x.2) (f.start e) = .ok fn := by
  unfold build
  by_cases hne : f.blocks = []
  · simp only [hne, List.isEmpty_nil, if_true, ne_eq, not_true_eq_false, false_and, iff_false]
    exact nofun
  · have hempty : f.blocks.isEmpty = false := by simpa using hne
    simp only [hempty, Bool.false_eq_true, if_false, ne_eq, hne, not_false_eq_true, true_and]
    rw [bind_eq_ok]
    constructor
    · intro h
      obtain ⟨_, hlabels, h⟩ := h
      obtain ⟨e, he, h⟩ := bind_eq_ok.mp h
      exact ⟨hlabels, e, he, h⟩
    · intro h
      obtain ⟨hlabels, e, he, h⟩ := h
      exact ⟨(), hlabels, bind_eq_ok.mpr ⟨e, he, h⟩⟩

theorem entryBlock_lt (hne : f.blocks ≠ []) (h : f.entryBlock = .ok e) : e < f.blocks.length := by
  unfold entryBlock at h
  split at h
  · cases h
    exact List.length_pos_iff.mpr hne
  · split at h
    · rename_i i hi
      cases h
      simpa [scope] using (List.findIdx?_eq_some_iff_getElem.mp hi).1
    · cases h

theorem build_loaded (h : f.build = .ok fn) : fn.Loaded := by
  obtain ⟨hne, -, e, he, h⟩ := build_eq_ok_iff.mp h
  have hscope : f.scope.labels.length = f.blocks.length := by simp [scope]
  have hw₀ : (f.start e).Wired := Func.wired_empty (by rw [start_eq]) (by simp [start_eq])
  let P (g : Func) : Prop := g.Wired ∧ g.blocks.length = f.blocks.length ∧ g.entry = some e
  have hP : P fn := by
    refine foldlM_keeps (P := P) ?_ ⟨hw₀, by simp [start_eq], rfl⟩ h
    rintro ⟨d, b⟩ hmem g g' ⟨hg, hl, hentry⟩ hfill
    have hb : b < f.blocks.length := by
      simpa using List.snd_lt_of_mem_zipIdx hmem
    obtain ⟨hg', hl', hentry'⟩ :=
      BlockDoc.fill_wired (hscope.trans hl.symm) (hl.symm ▸ hb) hg hfill
    exact ⟨hg', hl'.trans hl, hentry'.trans hentry⟩
  exact ⟨hP.1, e, hP.2.2, hP.2.1.symm ▸ entryBlock_lt hne he⟩

end FuncDoc

namespace Document

variable {path : Text} {fns : List Func} {fn : Func}

/-- Functions are built one by one. -/
theorem buildFuncs_built {fs : List FuncDoc} {seen : List Text} {st st' : Stats}
    (h : (buildFuncs path seen fs).run st = (.ok fns, st')) :
    List.Forall₂ (fun f fn => f.build = .ok fn) fs fns := by
  induction fs generalizing seen fns st with
  | nil =>
    cases h
    exact .nil
  | cons f fs ih =>
    simp only [buildFuncs] at h
    split at h
    · cases h
    · cases hf : f.build with
      | error e => simp [hf] at h; cases h
      | ok fn =>
        simp only [hf] at h
        obtain ⟨-, st₁, -, h⟩ := run_bind_eq_ok h
        obtain ⟨fns', st₂, hrest, h⟩ := run_bind_eq_ok h
        cases h
        exact .cons hf (ih hrest)

variable {d : Document} {st : Stats}

theorem built_of_ok (h : ((d.build path).run st).1 = .ok fns) :
    List.Forall₂ (fun f fn => f.build = .ok fn) d.functions fns :=
  buildFuncs_built (Prod.ext h rfl)

/-- Every function of a document that is accepted. -/
theorem loaded_of_ok (h : ((d.build path).run st).1 = .ok fns) (hfn : fn ∈ fns) : fn.Loaded := by
  obtain ⟨f, -, hf⟩ := forall₂_mem_right (built_of_ok h) hfn
  exact FuncDoc.build_loaded hf

end Document

end FlowGraph
