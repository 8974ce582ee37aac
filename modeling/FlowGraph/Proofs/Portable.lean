import Mathlib
import FlowGraph.Proofs.Definitions
import FlowGraph.Proofs.Lookup

/-! Functions that a document can describe in full: every operation is of a known kind with the
parts that the kind asks for, every value has a name of its own, and no reachable block refers to an
eliminated one. What is built from a document is such a function, and it remains one after a pass
that rejects nothing. -/

namespace FlowGraph

/-- The values that an operation computes and reads. -/
def Op.values (op : Op) : List (Option ValueRef) := op.results ++ op.uses

/-- An operation that can be described, in a function with `n` values. -/
structure Op.Portable (n : Nat) (op : Op) : Prop where
  known : ∀ kind text attributes, op ≠ .foreign kind text attributes
  jump : op.isJump = true → ∃ t, op = .jump (some t)
  named : ∀ name r args, op = .expr name r args → name ≠ []
  values : ∀ v, some v ∈ op.values → v < n

structure Phi.Portable (n : Nat) (p : Phi) : Prop where
  result : ∃ v, p.result = some v ∧ v < n
  operands : ∀ v, some v ∈ p.operands → v < n
  nodup : p.operands.Nodup

structure Func.Portable (fn : Func) : Prop where
  named : ∀ name ∈ fn.values, name ≠ []
  distinct : fn.values.Nodup
  phis : ∀ b, ∀ p ∈ fn.phisAt b, p.Portable fn.values.length
  ops : ∀ b, ∀ op ∈ fn.opsAt b, op.Portable fn.values.length

/-- A function with nothing in its reachable part that a document cannot describe. -/
structure Func.Whole (fn : Func) (entry : BlockRef) : Prop extends fn.Portable where
  start : fn.entry = some entry
  bound : entry < fn.blocks.length
  id : ∀ b < fn.blocks.length, (fn.block b).id = b + 1
  live : fn.LiveEdges entry

/-! ## Functions from documents -/

theorem Scope.lt_of_value {s : Scope} {name : Text} {v : ValueRef} (hs : s.values.Nodup)
    (h : s.value name = some v) : v < s.values.length :=
  (List.getElem?_eq_some_iff.mp ((Scope.value_eq_some_iff hs).mp h).2).1

/-- An operation has the values that its description names, in the same order. -/
theorem OpDoc.build_values {s : Scope} {o : OpDoc} {op : Op} (h : o.build s = .ok op) :
    op.values = o.valueNames.map s.value := by
  unfold valueNames
  cases builds_of_build_eq_ok h with
  | jump hk => rw [hk]; rfl
  | branch hk => rw [hk]; rfl
  | switch hk => rw [hk]; rfl
  | region hk => rw [hk]; rfl
  | expr hk => rw [hk]; rfl
  | ret hk => rw [hk]; rfl

theorem OpDoc.build_portable {s : Scope} {o : OpDoc} {op : Op} (hs : s.values.Nodup)
    (h : o.build s = .ok op) : op.Portable s.values.length where
  known kind text attributes hop := by
    subst hop
    cases builds_of_build_eq_ok h
  jump hjump := (build_described h).jump hjump
  named name r args hop := by
    subst hop
    cases builds_of_build_eq_ok h with
    | expr hk => exact (exists_build_ok.mp ⟨_, h⟩).name hk
  values v hv := by
    rw [build_values h] at hv
    obtain ⟨name, -, hname⟩ := List.mem_map.mp hv
    exact Scope.lt_of_value hs hname

theorem PhiDoc.build_portable {s : Scope} {p : PhiDoc} {phi : Phi} (hs : s.values.Nodup)
    (hp : p.result ∈ s.values) (h : p.build s = .ok phi) : phi.Portable s.values.length := by
  have hne : p.result ≠ [] := exists_build_ok.mp ⟨phi, h⟩
  rw [build, if_neg (by simpa using hne)] at h
  cases h
  refine ⟨?_, fun v hv => ?_, Phi.nodup_addOperands List.nodup_nil _⟩
  · obtain ⟨v, hv⟩ := Option.ne_none_iff_exists'.mp
      (fun hnone => hne ((Scope.value_eq_none_iff (.inl hp)).mp hnone))
    exact ⟨v, by rw [Phi.make, Phi.addOperands_result, hv], Scope.lt_of_value hs hv⟩
  · have hmem : some v ∈ p.operands.map s.value := by
      simpa using Phi.mem_addOperands.mp hv
    obtain ⟨name, -, hname⟩ := List.mem_map.mp hmem
    exact Scope.lt_of_value hs hname

namespace FuncDoc

variable {f : FuncDoc} {fn : Func}

theorem build_portable (h : f.build = .ok fn) : fn.Portable := by
  have hdesc := build_describes h
  have hwf : f.WellFormed := exists_build_ok.mp ⟨fn, h⟩
  refine ⟨fun name hname => ?_, ?_, fun b p hp => ?_, fun b op hop => ?_⟩
  · rw [hdesc.values] at hname
    exact (mem_values.mp hname).1
  · rw [hdesc.values]
    exact f.nodup_values
  · rw [hdesc.values]
    cases hd : f.blocks[b]? with
    | none =>
      rw [(hdesc.empty b (List.getElem?_eq_none_iff.mp hd)).1] at hp
      cases hp
    | some d =>
      have hmap := hdesc.phis b d hd (List.getElem?_eq_some_iff.mp hd).1
      obtain ⟨pd, hpd, hbuild⟩ := mem_of_mapM_ok hmap p hp
      have hd := List.mem_of_getElem? hd
      refine PhiDoc.build_portable f.nodup_values (mem_values.mpr ⟨hwf.phis d hd pd hpd, d, hd, ?_⟩)
        hbuild
      exact List.mem_append_left _ (List.mem_flatMap.mpr ⟨pd, hpd, List.mem_cons_self⟩)
  · rw [hdesc.values]
    cases hd : f.blocks[b]? with
    | none =>
      rw [(hdesc.empty b (List.getElem?_eq_none_iff.mp hd)).2] at hop
      cases hop
    | some d =>
      have hmap := hdesc.ops b d hd (List.getElem?_eq_some_iff.mp hd).1
      obtain ⟨o, -, hbuild⟩ := mem_of_mapM_ok hmap op hop
      exact OpDoc.build_portable f.nodup_values hbuild

theorem build_whole (h : f.build = .ok fn) : ∃ entry, fn.Whole entry := by
  have hdesc := build_describes h
  obtain ⟨entry, hentry, hlt⟩ := (build_loaded h).entry
  exact ⟨entry, build_portable h, hentry, hlt, fun b hb => hdesc.id b (hdesc.length ▸ hb),
    Threading.liveEdges_of_loaded (build_loaded h)⟩

end FuncDoc

/-! ## Functions after a pass -/

namespace Threading

variable {R : BlockRef → Prop} {s t : Threading} {n : Nat}

theorem Step.values (h : Step R s t) : t.fn.values = s.fn.values := by
  cases h with
  | bypass _ _ _ hm =>
    obtain ⟨phis, rfl⟩ := mergePhis_eq_some hm
    simp only [bypassed]
    split <;> rfl
  | _ => rfl

theorem Steps.values (h : Steps R s t) : t.fn.values = s.fn.values := by
  induction h with
  | refl => rfl
  | tail _ hstep ih => exact hstep.values.trans ih

/-- Operands come from phi nodes of the function, so they remain values of it. -/
theorem Step.phis_portable (h : Step R s t) (hp : s.fn.Placed)
    (hs : ∀ b, ∀ p ∈ s.fn.phisAt b, p.Portable n) : ∀ b, ∀ p ∈ t.fn.phisAt b, p.Portable n := by
  simp only [Func.phisAt, List.forall_mem_map] at hs ⊢
  intro b q hq
  rcases h.cases_phis hp with hsame | ⟨b', dest, -, -, -, hhanded⟩
  · rw [hsame.phi]
    exact hs b q (hsame.lists b ▸ hq)
  · have hq := (hhanded.mem_lists.mp hq).2
    refine ⟨hhanded.result q ▸ (hs b q hq).result, fun v hv => ?_, (h.placed hp).nodup q⟩
    rcases hhanded.mem_operands hp hv with ⟨hv, -⟩ | ⟨p, hpt, hv⟩
    · exact (hs b q hq).operands v hv
    · exact (hs b' p (mem_takenBy.mp hpt).1).operands v hv

theorem Steps.phis_portable (h : Steps R s t) (hp : s.fn.Placed)
    (hs : ∀ b, ∀ p ∈ s.fn.phisAt b, p.Portable n) : ∀ b, ∀ p ∈ t.fn.phisAt b, p.Portable n := by
  induction h with
  | refl => exact hs
  | tail hsteps hstep ih => exact hstep.phis_portable (Steps.placed hsteps hp) ih

/-- An operation keeps all but its references, and a jump that had a reference has one still. -/
theorem Redirected.op_portable {fn₀ : Func} (h : Redirected fn₀ s) {o : OpRef}
    (ho : (fn₀.op o).Portable n) : (s.fn.op o).Portable n := by
  have hblank := h.alike.blank o
  refine ⟨fun kind text as hop => ?_, fun hjump => ?_, fun name r args hop => ?_, fun v hv => ?_⟩
  · rw [hop] at hblank
    cases hop₀ : fn₀.op o with
    | foreign kind' text' as' => exact ho.known kind' text' as' hop₀
    | _ => rw [hop₀] at hblank; cases hblank
  · obtain ⟨m, hop₀⟩ := ho.jump ((Op.isJump_of_blank hblank).symm.trans hjump)
    obtain ⟨c, hc, -⟩ := h.slot_of (o := o) (i := 0) (j := 0) (by rw [Func.slot?_jump hop₀]; rfl)
    cases hop : s.fn.op o with
    | jump t =>
      rw [Func.slot?, hop] at hc
      cases hc
      exact ⟨c, rfl⟩
    | _ => rw [hop] at hjump; cases hjump
  · rw [hop] at hblank
    cases hop₀ : fn₀.op o with
    | expr name' r' args' =>
      rw [hop₀] at hblank
      cases hblank
      exact ho.named _ _ _ hop₀
    | _ => rw [hop₀] at hblank; cases hblank
  · rw [Op.values, Op.results_of_blank hblank, Op.uses_of_blank hblank] at hv
    exact ho.values v hv

/-- Without rejections a function that was built can be described in full again. -/
theorem whole_of_pass {f : FuncDoc} {fn : Func} (hf : f.build = .ok fn) {stats : Stats} {w : Work}
    (hrun : threadJumps.run ⟨fn, stats⟩ = (.ok (), w))
    (hrejects : w.stats.phiRejects = stats.phiRejects) :
    w.fn.name = fn.name ∧ ∃ entry, w.fn.Whole entry := by
  obtain ⟨entry, hwhole⟩ := FuncDoc.build_whole hf
  have hw : fn.Loaded := FuncDoc.build_loaded hf
  have hplaced : fn.Placed := FuncDoc.build_placed hf
  obtain ⟨t, hrun', hpassed, hsteps⟩ := threadJumps_steps hw hwhole.start stats
  cases hrun.symm.trans hrun'
  have hsteps := hsteps (fun _ => True) (fun _ _ _ _ => trivial) trivial
  have hvalues : t.fn.values = fn.values := hsteps.values
  have halike := hpassed.sound.redirected.alike
  refine ⟨halike.name, entry, ⟨?_, ?_, ?_, ?_⟩, halike.entry.trans hwhole.start,
    halike.blocks ▸ hwhole.bound, fun b hb => ?_, hpassed.liveEdges hw hrejects⟩
  · rw [hvalues]
    exact hwhole.named
  · rw [hvalues]
    exact hwhole.distinct
  · rw [hvalues]
    exact hsteps.phis_portable hplaced hwhole.phis
  · rw [hvalues]
    intro b op hop
    obtain ⟨o, ho, rfl⟩ := List.mem_map.mp hop
    refine hpassed.sound.redirected.op_portable (hwhole.ops b _ ?_)
    exact List.mem_map_of_mem (halike.blockOps b ▸ ho)
  · exact (halike.id b).trans (hwhole.id b (halike.blocks ▸ hb))

end Threading

end FlowGraph
