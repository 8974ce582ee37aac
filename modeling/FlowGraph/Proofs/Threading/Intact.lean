import Mathlib
import FlowGraph.Proofs.Outcome
import FlowGraph.Proofs.Threading.Bypass

/-! Why a pass never breaks off, also on a graph that earlier passes left behind. Blocks may be
marked and still referred to, an eliminated block may be the entry, operations may be shared. All
that matters is that every jump leads somewhere, that there is an entry and that no parent is
missing. A pass keeps this at every moment, and it keeps the shape of every operation, so
references are written back under the keys they were read under. -/

namespace FlowGraph

namespace Func

variable {fn fn' : Func} {b c : BlockRef}

structure Intact (fn : Func) : Prop where
  entry : fn.entry.isSome
  jump : ∀ o, fn.op o ≠ .jump none
  real : ∀ b, none ∉ (fn.block b).parents

theorem mem_of_mem_addParent {p q : Option BlockRef}
    (h : q ∈ ((fn.addParent b p).block c).parents) : q ∈ (fn.block c).parents ∨ q = p := by
  rw [addParent, block_modifyBlock] at h
  split at h
  · rw [Block.addParent] at h
    split at h
    · exact .inl h
    · simpa using h
  · exact .inl h

theorem mem_of_mem_removeParent {p q : Option BlockRef}
    (h : q ∈ ((fn.removeParent b p).block c).parents) : q ∈ (fn.block c).parents := by
  rw [removeParent, block_modifyBlock] at h
  split at h
  · exact List.mem_of_mem_erase h
  · exact h

namespace Intact

theorem of_same (h : fn.Intact) (halike : fn.Alike fn') (hop : ∀ o, fn'.op o = fn.op o)
    (hreal : ∀ b, none ∉ (fn'.block b).parents) : fn'.Intact where
  entry := halike.entry ▸ h.entry
  jump o := hop o ▸ h.jump o
  real := hreal

theorem addParent (h : fn.Intact) (b p : BlockRef) : (fn.addParent b (some p)).Intact := by
  refine h.of_same (alike_addParent fn b (some p)) (fun _ => rfl) fun c hc => ?_
  rcases mem_of_mem_addParent hc with hc | hc
  · exact h.real c hc
  · cases hc

theorem removeParent (h : fn.Intact) (b : BlockRef) (p : Option BlockRef) :
    (fn.removeParent b p).Intact :=
  h.of_same (alike_removeParent fn b p) (fun _ => rfl) fun c hc =>
    h.real c (mem_of_mem_removeParent hc)

end Intact

theorem Loaded.intact (h : fn.Loaded) : fn.Intact where
  entry := by
    obtain ⟨e, he, -⟩ := h.entry
    rw [he]
    rfl
  jump o ho := by
    obtain ⟨t, ht⟩ := h.jump o (by rw [ho]; rfl)
    rw [ho] at ht
    cases ht
  real b hb := by
    obtain ⟨q, hq, -⟩ := (h.parents b none).mp hb
    cases hq

end Func

namespace Threading

variable {fn₀ fn : Func} {s : Threading} {b bb dest : BlockRef} {jmp o : OpRef}

/-! ## Following jumps -/

theorem exists_target (h : fn.Intact) (hjmp : fn.leadingJump b = some jmp) :
    ∃ dest, target fn b jmp = .ok dest := by
  have hj := (Func.leadingJump_eq_some hjmp).2
  cases hop : fn.op jmp with
  | jump t =>
    cases t with
    | none => exact absurd hop (h.jump jmp)
    | some dest => exact ⟨dest, by simp [target, hop]⟩
  | _ => simp [hop, Op.isJump] at hj

/-- Eliminated blocks start with jumps, and the number of steps bounds the walk over them. -/
theorem exists_resolveFrom {removed : List BlockRef} (h : fn.Intact)
    (hremoved : ∀ b ∈ removed, (fn.leadingJump b).isSome) :
    ∀ (steps : Nat) (b : BlockRef), ∃ dest, resolveFrom fn removed steps b = .ok dest := by
  intro steps
  induction steps with
  | zero => exact fun b => ⟨b, rfl⟩
  | succ steps ih =>
    intro b
    unfold resolveFrom
    split
    · rename_i hb
      obtain ⟨jmp, hjmp⟩ := Option.isSome_iff_exists.mp (hremoved b hb)
      obtain ⟨next, hnext⟩ := exists_target h hjmp
      obtain ⟨dest, hdest⟩ := ih next
      exact ⟨dest, by simp only [hjmp, hnext]; exact hdest⟩
    · exact ⟨b, rfl⟩

/-! ## The state of a pass -/

/-- What holds of every state of a pass over `fn₀`. -/
structure Intact (fn₀ : Func) (s : Threading) : Prop where
  alike : fn₀.Alike s.fn
  graph : s.fn.Intact
  jump : ∀ b ∈ s.removed, (fn₀.leadingJump b).isSome

namespace Intact

theorem changeFn (h : s.Intact fn₀) (halike : s.fn.Alike fn) (hfn : fn.Intact) :
    Intact fn₀ { s with fn } :=
  ⟨h.alike.trans halike, hfn, h.jump⟩

theorem mark (h : s.Intact fn₀) (b : BlockRef) :
    Intact fn₀ { s with fn := s.fn.modifyBlock b fun bb => { bb with dead := true } } := by
  have halike : s.fn.Alike (s.fn.modifyBlock b fun bb => { bb with dead := true }) :=
    .modifyBlock (f := fun bb => { bb with dead := true }) (fun _ => rfl) (fun _ => rfl) _ _
  refine h.changeFn halike (h.graph.of_same halike (fun _ => rfl) fun c hc => ?_)
  rw [Func.block_modifyBlock] at hc
  split at hc <;> exact h.graph.real c hc

theorem remove (h : s.Intact fn₀) (hb : (fn₀.leadingJump b).isSome) :
    Intact fn₀ { s with removed := s.removed ++ [b] } := by
  refine ⟨h.alike, h.graph, fun c hc => ?_⟩
  rcases List.mem_append.mp hc with hc | hc
  · exact h.jump c hc
  · rw [List.mem_singleton.mp hc]
    exact hb

theorem count (h : s.Intact fn₀) (stats : Stats) : Intact fn₀ { s with stats } :=
  ⟨h.alike, h.graph, h.jump⟩

end Intact

/-! ## Every moment of a pass -/

namespace Watched

variable {w : Watched} {f : Threading → Threading} {follow : OpRef → BlockRef → M Unit} {i : Nat}

/-- What the watcher of a pass over `fn₀` has seen so far. -/
structure Intact (fn₀ : Func) (w : Watched) : Prop where
  state : w.state.Intact fn₀
  seen : ∀ e ∈ w.seen, e.graph.Intact
  shown : w.state.fn ∈ fn₀ :: w.seen.map Event.graph

theorem change_intact (h : w.Intact fn₀) (hf : (f w.state).Intact fn₀) :
    Ensures (modify f : M Unit) w fun _ w' => w'.Intact fn₀ := by
  refine ⟨(), _, rfl, hf, fun e he => ?_, ?_⟩
  · rcases List.mem_append.mp he with he | he
    · exact h.seen e he
    · rw [List.mem_singleton.mp he]
      exact hf.graph
  · rw [List.map_append]
    exact List.mem_cons_of_mem _ (List.mem_append_right _ List.mem_cons_self)

theorem note_intact {e : Threading → Event} (he : ∀ s, (e s).graph = s.fn) (h : w.Intact fn₀) :
    Ensures (note e) w fun _ w' => w'.Intact fn₀ := by
  refine ⟨(), _, rfl, h.state, fun x hx => ?_, ?_⟩
  · rcases List.mem_append.mp hx with hx | hx
    · exact h.seen x hx
    · rw [List.mem_singleton.mp hx, he]
      exact h.state.graph
  · rw [List.map_append, ← List.cons_append]
    exact List.mem_append_left _ h.shown

theorem count_intact {f : Stats → Stats} (h : w.Intact fn₀) :
    Ensures (count f : M Unit) w fun _ w' => w'.Intact fn₀ :=
  change_intact h (h.state.count _)

theorem eliminate_intact (h : w.Intact fn₀) (hb : (fn₀.leadingJump b).isSome) :
    Ensures (eliminate b) w fun _ w' => w'.Intact fn₀ := by
  refine .bind (get_ensures ?_)
  split
  · exact .pure h
  · refine .bind ((change_intact h (h.state.mark b)).mono fun _ w h => ?_)
    refine .bind ((change_intact h (h.state.remove hb)).mono fun _ w h => ?_)
    exact count_intact h

theorem bypass_intact (h : w.Intact fn₀) (hjmp : fn₀.leadingJump b = some jmp) :
    Ensures (bypass (some bb) b jmp) w fun _ w' => w'.Intact fn₀ := by
  have hjmp' : w.state.fn.leadingJump b = some jmp := (h.state.alike.leadingJump b).trans hjmp
  obtain ⟨dest, htarget⟩ := exists_target h.state.graph hjmp'
  refine .bind (get_ensures (.bind (.ok htarget ?_)))
  split
  · exact .bind ((count_intact h).mono fun _ _ h => .pure h)
  · cases hm : mergePhis w.state.fn b dest with
    | none => exact .bind ((count_intact h).mono fun _ _ h => .pure h)
    | some fn =>
      have hmerged := mergePhis_merged hm (Func.lt_of_leadingJump hjmp')
      have hfn : fn.Intact := h.state.graph.of_same hmerged.alike hmerged.op fun c hc =>
        h.state.graph.real c (hmerged.parents c ▸ hc)
      refine .bind ((change_intact h (h.state.changeFn hmerged.alike hfn)).mono fun _ w h => ?_)
      refine .bind ((count_intact h).mono fun _ w h => ?_)
      refine .bind ((eliminate_intact h (by rw [hjmp]; rfl)).mono fun _ w h => ?_)
      have halike := (Func.alike_removeParent w.state.fn dest (some b)).trans
        (Func.alike_addParent _ dest (some bb))
      have hlast := (h.state.graph.removeParent dest (some b)).addParent dest bb
      exact .bind ((change_intact h (h.state.changeFn halike hlast)).mono fun _ _ h => .pure h)

theorem shortCircuit_intact (h : w.Intact fn₀) (hjmp : w.state.fn.leadingJump b = some jmp) :
    Ensures (shortCircuit (some bb) b jmp) w fun _ w' => w'.Intact fn₀ := by
  obtain ⟨next, hnext⟩ := exists_target h.state.graph hjmp
  have hremoved : ∀ c ∈ w.state.removed, (w.state.fn.leadingJump c).isSome := by
    intro c hc
    rw [h.state.alike.leadingJump]
    exact h.state.jump c hc
  obtain ⟨dest, hdest⟩ := exists_resolveFrom h.state.graph hremoved w.state.removed.length next
  have hresolve : resolve w.state.fn w.state.removed b jmp = .ok dest := by
    simp only [resolve, hnext]
    exact hdest
  refine .bind (get_ensures (.bind (.ok hresolve (.bind ?_))))
  refine (note_intact (fun _ => rfl) h).mono fun _ w h => ?_
  refine .bind ((change_intact h (h.state.changeFn (Func.alike_addParent ..)
    (h.state.graph.addParent dest bb))).mono fun _ w h => ?_)
  exact .bind ((count_intact h).mono fun _ _ h => .pure h)

/-- A follower that keeps all of it, whatever trampoline it is called for. -/
def FollowIntact (fn₀ : Func) (follow : OpRef → BlockRef → M Unit) : Prop :=
  ∀ jmp b w, w.Intact fn₀ → Ensures (follow jmp b) w fun _ w' => w'.Intact fn₀

theorem threadBlock_intact (hfollow : FollowIntact fn₀ follow) (h : w.Intact fn₀) :
    Ensures (threadBlock follow (some bb) b) w fun _ w' => w'.Intact fn₀ := by
  refine .bind (get_ensures ?_)
  cases hjmp : w.state.fn.leadingJump b with
  | none => exact .pure h
  | some jmp =>
    dsimp only
    split
    · exact shortCircuit_intact h hjmp
    · refine .bind ((hfollow jmp b w h).mono fun _ w' h' => ?_)
      exact bypass_intact h' ((h.state.alike.leadingJump b).symm.trans hjmp)

/-- What takes the place of a reference has its key, and is there if the reference is. -/
def Renewed (x y : Target) : Prop := y.key = x.key ∧ (x.block.isSome → y.block.isSome)

theorem threadTarget_intact (hfollow : FollowIntact fn₀ follow) (h : w.Intact fn₀) (x : Target) :
    Ensures (threadTarget follow (some bb) x) w fun y w' => w'.Intact fn₀ ∧ Renewed x y := by
  obtain ⟨k, _ | b⟩ := x
  · exact .bind (.pure (.pure ⟨h, rfl, id⟩))
  · refine .bind (.bind ((threadBlock_intact hfollow h).mono fun dest w h => ?_))
    exact .bind ((note_intact (fun _ => rfl) h).mono fun _ w h => .pure (.pure ⟨h, rfl, fun _ => rfl⟩))

theorem mapM_threadTarget_intact (hfollow : FollowIntact fn₀ follow) (ts : List Target) :
    ∀ w : Watched, w.Intact fn₀ → Ensures (ts.mapM (threadTarget follow (some bb))) w
      fun tt w' => w'.Intact fn₀ ∧ List.Forall₂ Renewed ts tt := by
  induction ts with
  | nil =>
    intro w h
    rw [List.mapM_nil]
    exact .pure ⟨h, .nil⟩
  | cons x ts ih =>
    intro w h
    rw [List.mapM_cons]
    refine .bind ((threadTarget_intact hfollow h x).mono fun y w hy => ?_)
    refine .bind ((ih w hy.1).mono fun tt w htt => ?_)
    exact .pure ⟨htt.1, .cons hy.2 htt.2⟩

theorem renewed_keys {ts tt : List Target} (h : List.Forall₂ Renewed ts tt) :
    tt.map Target.key = ts.map Target.key := by
  induction h with
  | nil => rfl
  | cons hxy _ ih => rw [List.map_cons, List.map_cons, ih, hxy.1]

/-- A jump of an intact graph keeps a target when its references are renewed, whatever became of
it in between. -/
theorem jump_of_renewed {fn₁ fn' : Func} {a : Attribute} {tt : List Target} (h : fn₁.Intact)
    (hblank : (fn'.op o).blank = (fn₁.op o).blank) (ha : (fn₁.op o).attributes[i]? = some a)
    (htt : List.Forall₂ Renewed a.slot.targets tt) (hslot : ∀ j, fn'.slot? o i j = tt[j]?) :
    fn'.op o ≠ .jump none := by
  -- a jump has one reference, so what it lost now must have been lost when it was read
  intro hop
  have hjump : (fn₁.op o).isJump = true := by
    rw [← Op.isJump_of_blank hblank, hop]
    rfl
  obtain ⟨rfl, -⟩ := Op.attributes_of_isJump hjump ha
  have hread : tt[0]? = some ⟨0, none⟩ := by
    rw [← hslot, Func.slot?_jump hop]
    rfl
  cases hop₁ : fn₁.op o with
  | jump t =>
    rw [hop₁] at ha
    cases ha
    cases htt with
    | @cons _ y _ _ hy _ =>
      obtain rfl : y = ⟨0, none⟩ := by simpa using hread
      cases t with
      | none => exact h.jump o hop₁
      | some t => cases hy.2 rfl
  | _ => rw [hop₁] at hjump; cases hjump

/-- References that were read from an earlier graph of the pass are written back. -/
theorem writeBack_intact {fn₁ : Func} {a : Attribute} {tt : List Target} (h : w.Intact fn₀)
    (halike₁ : fn₀.Alike fn₁) (h₁ : fn₁.Intact) (ha : (fn₁.op o).attributes[i]? = some a)
    (htt : List.Forall₂ Renewed a.slot.targets tt) :
    Ensures (writeBack o i tt) w fun _ w' => w'.Intact fn₀ := by
  -- nested calls may have rewritten `o` since it was read, but only its references, never its keys
  have hblank : (w.state.fn.op o).blank = (fn₁.op o).blank :=
    (h.state.alike.blank o).trans (halike₁.blank o).symm
  obtain ⟨a', ha', hkeys⟩ := Op.keys_of_blank hblank ha
  obtain ⟨fn', hstore, hblocks, -, halike, hother, hslot⟩ :=
    Func.store_of_keys ha' ((renewed_keys htt).trans hkeys.symm)
  have hfn : fn'.Intact := by
    refine ⟨halike.entry ▸ h.state.graph.entry, fun o' => ?_, fun b => ?_⟩
    · by_cases ho : o' = o
      · subst ho
        refine jump_of_renewed h₁ ((halike.blank o').trans hblank) ha htt fun j => ?_
        rw [hslot, if_pos rfl]
      · rw [hother o' ho]
        exact h.state.graph.jump o'
    · rw [Func.block, hblocks]
      exact h.state.graph.real b
  refine .bind (get_ensures ?_)
  rw [hstore]
  exact .bind ((change_intact h (h.state.changeFn halike hfn)).mono fun _ _ h => .pure h)

theorem threadAttribute_intact (hfollow : FollowIntact fn₀ follow) (h : w.Intact fn₀) :
    Ensures (threadAttribute follow o (some bb) i) w fun _ w' => w'.Intact fn₀ := by
  refine .bind (get_ensures ?_)
  cases ha : (w.state.fn.op o).attributes[i]? with
  | none => exact .pure h
  | some a =>
    refine .bind ((mapM_threadTarget_intact hfollow _ w h).mono fun tt w' htt => ?_)
    exact writeBack_intact htt.1 h.state.alike h.state.graph ha htt.2

theorem threadOp_intact (hfollow : FollowIntact fn₀ follow) (h : w.Intact fn₀) :
    Ensures (threadOp follow o (some bb)) w fun _ w' => w'.Intact fn₀ :=
  .bind (get_ensures (.forM (I := fun _ (w : Watched) => w.Intact fn₀)
    (fun _ _ _ h => threadAttribute_intact hfollow h) h))

theorem simplifyIdle_intact (idle : List OpRef) (o : OpRef) (bb : Option BlockRef) :
    ∀ (b : BlockRef) (w : Watched), bb = some b → w.Intact fn₀ →
      Ensures (simplifyIdle idle o bb) w fun _ w' => w'.Intact fn₀ := by
  induction idle, o, bb using simplifyIdle.induct with
  | case1 idle o bb ho ih =>
    rintro b w rfl h
    unfold simplifyIdle
    rw [dif_pos ho]
    exact threadOp_intact (fun jmp c w h => ih jmp c c w rfl h) h
  | case2 idle o bb ho =>
    intro b w _ h
    unfold simplifyIdle
    rw [dif_neg ho]
    exact .pure h

theorem simplify_intact (o : OpRef) (b : BlockRef) (h : w.Intact fn₀) :
    Ensures (simplify o (some b)) w fun _ w' => w'.Intact fn₀ :=
  .bind (get_ensures (simplifyIdle_intact _ o (some b) b w rfl h))

theorem visitor_keeps_intact :
    visitor.Keeps (fun w => w.Intact fn₀) fun _ _ => False where
  enterBlock _ _ h := .pure h
  enterOp o b _ h := .ofEnsures (simplify_intact o b h)
  leaveBlock _ _ h := .pure h

theorem run_intact (h : w.Intact fn₀) : Ensures run w fun _ w' => w'.Intact fn₀ := by
  have hvisitors : ∀ v ∈ [visitor], v.Keeps (fun w => w.Intact fn₀) fun _ _ => False := by
    intro v hv
    rw [List.mem_singleton.mp hv]
    exact visitor_keeps_intact
  refine .bind (get_ensures (Outcome.ensures (Visitor.walk_outcome hvisitors _ ?_ w h)))
  intro hnone
  have hentry := h.state.graph.entry
  rw [hnone] at hentry
  cases hentry

end Watched

/-! ## The pass itself -/

/-- An action whose watched form is `y` leads from `s` to `t`, and every graph on the way is
intact. -/
structure Safely (y : Watched.M Unit) (s t : Threading) : Prop where
  intact : t.Intact s.fn
  moments : ∀ fn ∈ Watched.moments y s, fn.Intact
  shown : t.fn ∈ Watched.moments y s

theorem safely_of_watched {x : M Unit} {y : Watched.M Unit} (hshows : Watched.Shows x y)
    (h : s.Intact s.fn)
    (hy : ∀ w : Watched, w.Intact s.fn → Ensures y w fun _ w' => w'.Intact s.fn) :
    Ensures x s fun _ t => Safely y s t := by
  have hstart : Watched.Intact s.fn { state := s } := ⟨h, nofun, List.mem_cons_self⟩
  obtain ⟨_, w, hrun, hw⟩ := hy _ hstart
  have hmoments : Watched.moments y s = s.fn :: w.seen.map Event.graph := by
    rw [Watched.moments, hrun]
  refine ⟨(), w.state, ?_, hw.state, ?_, hmoments ▸ hw.shown⟩
  · rw [← hshows { state := s }, hrun]
  · intro fn hfn
    rw [hmoments] at hfn
    rcases List.mem_cons.mp hfn with rfl | hfn
    · exact h.graph
    · obtain ⟨e, he, rfl⟩ := List.mem_map.mp hfn
      exact hw.seen e he

theorem simplify_safely (o : OpRef) (b : BlockRef) (h : s.Intact s.fn) :
    Ensures (simplify o (some b)) s fun _ t => Safely (Watched.simplify o (some b)) s t :=
  safely_of_watched (Watched.simplify_shows o (some b)) h fun _ => Watched.simplify_intact o b

theorem run_safely (h : s.Intact s.fn) : Ensures run s fun _ t => Safely Watched.run s t :=
  safely_of_watched Watched.run_shows h fun _ => Watched.run_intact

end Threading

end FlowGraph
