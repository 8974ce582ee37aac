import Mathlib
import FlowGraph.Consistency
import FlowGraph.Proofs.Search

/-! The law that a check of a graph decides. The law is stated for one block, without a search:
parents are listed once, a live parent that can be reached has an edge to the block, and what the
block refers to is live and lists it as a parent. A check accepts a graph exactly if every live
block that can be reached obeys the law; otherwise it names the first one that does not, in the
order of the block numbers, and something that is wrong with it. -/

namespace FlowGraph

namespace Func

variable {fn : Func} {g : Reach} {entry b c p : BlockRef} {v : Violation}

/-- A path from the entry that enters live blocks only. The entry itself need not be live. -/
def Reached (fn : Func) (entry b : BlockRef) : Prop :=
  Relation.ReflTransGen (fun p q => fn.Refers p q ∧ fn.isLive q = true) entry b

theorem mem_reachable_iff : b ∈ fn.reachable entry ↔ fn.Reached entry b := by
  constructor
  · exact reachable_of_closed (P := fn.Reached entry) .refl fun _ hp _ hr hlive =>
      hp.tail ⟨hr, hlive⟩
  · intro hb
    induction hb with
    | refl => exact entry_mem_reachable fn entry
    | tail _ hstep ih => exact reachable_closed ih hstep.1 hstep.2

/-- The law of consistency at a block. -/
structure Lawful (fn : Func) (entry b : BlockRef) : Prop where
  nodup : (fn.block b).parents.Nodup
  edge : ∀ p, some p ∈ (fn.block b).parents → fn.isLive p = true → fn.Reached entry p →
    fn.Refers p b
  live : ∀ c, fn.Refers b c → fn.isLive c = true
  parent : ∀ c, fn.Refers b c → some b ∈ (fn.block c).parents

/-- What each complaint about a block says. -/
def Breaks (fn : Func) (entry b : BlockRef) : Violation → Prop
  | .noEntry => False
  | .duplicateParent id => ∃ p, (fn.block p).id = id ∧ (fn.block b).parents.Duplicate (some p)
  | .parentWithoutEdge id => ∃ p, (fn.block p).id = id ∧ some p ∈ (fn.block b).parents ∧
      fn.isLive p = true ∧ fn.Reached entry p ∧ ¬fn.Refers p b
  | .edgeToEliminated id => ∃ c, (fn.block c).id = id ∧ fn.Refers b c ∧ fn.isLive c = false
  | .unregisteredParent id => ∃ c, (fn.block c).id = id ∧ fn.Refers b c ∧
      fn.isLive c = true ∧ some b ∉ (fn.block c).parents

theorem Breaks.not_lawful (h : fn.Breaks entry b v) : ¬fn.Lawful entry b := by
  intro hlaw
  cases v with
  | noEntry => exact h
  | duplicateParent id =>
    obtain ⟨p, -, hdup⟩ := h
    exact List.nodup_iff_forall_not_duplicate.mp hlaw.nodup _ hdup
  | parentWithoutEdge id =>
    obtain ⟨p, -, hp, hlive, hreach, hedge⟩ := h
    exact hedge (hlaw.edge p hp hlive hreach)
  | edgeToEliminated id =>
    obtain ⟨c, -, hr, hdead⟩ := h
    simp [hlaw.live c hr] at hdead
  | unregisteredParent id =>
    obtain ⟨c, -, hr, -, hparent⟩ := h
    exact hparent (hlaw.parent c hr)

/-! ## The checks of one block

Each check is described by what its answers mean. -/

/-- What an answer about the parents `ps` means if the parents in `seen` stand before them. -/
inductive ParentsVerdict (fn : Func) (g : Reach) (b : BlockRef)
    (seen ps : List (Option BlockRef)) : Except Fault (Option Violation) → Prop
  | fine (nodup : ps.Nodup) (fresh : ∀ p ∈ ps, p ∉ seen)
      (edge : ∀ p, some p ∈ ps → fn.isLive p = true → g.has p = true → fn.Refers p b) :
      ParentsVerdict fn g b seen ps (.ok none)
  | twice (p : BlockRef) (listed : some p ∈ ps) (again : some p ∈ seen ∨ ps.Duplicate (some p)) :
      ParentsVerdict fn g b seen ps (.ok (some (.duplicateParent (fn.block p).id)))
  | edgeless (p : BlockRef) (listed : some p ∈ ps) (live : fn.isLive p = true)
      (has : g.has p = true) (edgeless : ¬fn.Refers p b) :
      ParentsVerdict fn g b seen ps (.ok (some (.parentWithoutEdge (fn.block p).id)))
  | missing (f : Fault) (listed : none ∈ ps) : ParentsVerdict fn g b seen ps (.error f)

/-- A verdict on the rest of the parents is one on all of them if the first one is in order. -/
theorem ParentsVerdict.cons {seen ps : List (Option BlockRef)}
    {r : Except Fault (Option Violation)} (h : ParentsVerdict fn g b (some p :: seen) ps r)
    (hseen : some p ∉ seen)
    (hedge : fn.isLive p = true → g.has p = true → fn.Refers p b) :
    ParentsVerdict fn g b seen (some p :: ps) r := by
  cases h with
  | fine nodup fresh edge =>
    have hp : some p ∉ ps := fun hm => fresh _ hm List.mem_cons_self
    refine .fine (List.nodup_cons.mpr ⟨hp, nodup⟩) ?_ ?_
    · rw [List.forall_mem_cons]
      exact ⟨hseen, fun q hq hm => fresh q hq (List.mem_cons_of_mem _ hm)⟩
    · intro q hq hlive hhas
      rcases List.mem_cons.mp hq with heq | hq
      · cases heq
        exact hedge hlive hhas
      · exact edge q hq hlive hhas
  | twice q listed again =>
    refine .twice q (List.mem_cons_of_mem _ listed) ?_
    -- what stands before the rest is `p` or stands before `p`
    rcases again with hm | hdup
    · rcases List.mem_cons.mp hm with heq | hm
      · cases heq
        exact .inr (List.Mem.duplicate_cons_self listed)
      · exact .inl hm
    · exact .inr (hdup.duplicate_cons _)
  | edgeless q listed live has edgeless =>
    exact .edgeless q (List.mem_cons_of_mem _ listed) live has edgeless
  | missing f listed => exact .missing f (List.mem_cons_of_mem _ listed)

theorem checkParents_verdict (fn : Func) (g : Reach) (b : BlockRef) (ps : List (Option BlockRef)) :
    ∀ seen, ParentsVerdict fn g b seen ps (fn.checkParents g b seen ps) := by
  induction ps with
  | nil => exact fun seen => .fine List.nodup_nil (by simp) (by simp)
  | cons p ps ih =>
    intro seen
    cases p with
    | none => exact .missing _ List.mem_cons_self
    | some p =>
      rw [checkParents]
      split
      · next hseen => exact .twice p List.mem_cons_self (.inl hseen)
      · next hseen =>
        have hbad : (fn.isLive p && g.has p && !fn.targets p (some b)) = true ↔
            fn.isLive p = true ∧ g.has p = true ∧ ¬fn.Refers p b := by
          rw [← targets_iff]
          simp [and_assoc]
        split
        · next hb =>
          obtain ⟨hlive, hhas, hedge⟩ := hbad.mp hb
          exact .edgeless p List.mem_cons_self hlive hhas hedge
        · next hb =>
          refine (ih _).cons hseen fun hlive hhas => ?_
          by_contra hedge
          exact hb (hbad.mpr ⟨hlive, hhas, hedge⟩)

/-- What an answer about the successors `qs` means. -/
inductive SuccessorsVerdict (fn : Func) (b : BlockRef) (qs : List BlockRef) :
    Option Violation → Prop
  | fine (registered : ∀ q ∈ qs, fn.isLive q = true ∧ some b ∈ (fn.block q).parents) :
      SuccessorsVerdict fn b qs none
  | eliminated (q : BlockRef) (mem : q ∈ qs) (dead : fn.isLive q = false) :
      SuccessorsVerdict fn b qs (some (.edgeToEliminated (fn.block q).id))
  | unregistered (q : BlockRef) (mem : q ∈ qs) (live : fn.isLive q = true)
      (parent : some b ∉ (fn.block q).parents) :
      SuccessorsVerdict fn b qs (some (.unregisteredParent (fn.block q).id))

theorem checkSuccessors_verdict (fn : Func) (b : BlockRef) (qs : List BlockRef) :
    SuccessorsVerdict fn b qs (fn.checkSuccessors b qs) := by
  induction qs with
  | nil => exact .fine (by simp)
  | cons q qs ih =>
    cases hlive : fn.isLive q with
    | false =>
      simp only [checkSuccessors, hlive]
      exact .eliminated q List.mem_cons_self hlive
    | true =>
      by_cases hp : some b ∈ (fn.block q).parents
      · have hrest : fn.checkSuccessors b (q :: qs) = fn.checkSuccessors b qs := by
          simp [checkSuccessors, hlive, Block.hasParent, hp]
        rw [hrest]
        generalize fn.checkSuccessors b qs = r at ih ⊢
        cases ih with
        | fine registered => exact .fine (List.forall_mem_cons.mpr ⟨⟨hlive, hp⟩, registered⟩)
        | eliminated c mem dead => exact .eliminated c (List.mem_cons_of_mem _ mem) dead
        | unregistered c mem live parent =>
          exact .unregistered c (List.mem_cons_of_mem _ mem) live parent
      · simp only [checkSuccessors, hlive, Block.hasParent, hp]
        exact .unregistered q List.mem_cons_self hlive hp

/-- What an answer about a block means. -/
inductive BlockVerdict (fn : Func) (entry b : BlockRef) : Except Fault (Option Violation) → Prop
  | fine (lawful : fn.isLive b = true → fn.Lawful entry b) : BlockVerdict fn entry b (.ok none)
  | broken (v : Violation) (live : fn.isLive b = true) (breaks : fn.Breaks entry b v) :
      BlockVerdict fn entry b (.ok (some v))
  | missing (f : Fault) (listed : none ∈ (fn.block b).parents) : BlockVerdict fn entry b (.error f)

theorem has_ofEntry_iff : (Reach.ofEntry fn entry).has p = true ↔ fn.Reached entry p := by
  rw [← mem_reachable_iff]
  exact decide_eq_true_iff

theorem checkBlock_verdict (fn : Func) (entry b : BlockRef) :
    BlockVerdict fn entry b (fn.checkBlock (Reach.ofEntry fn entry) b) := by
  cases hlive : fn.isLive b with
  | false =>
    have hskip : fn.checkBlock (Reach.ofEntry fn entry) b = .ok none := by
      rw [checkBlock, hlive]
      rfl
    rw [hskip]
    exact .fine (by simp [hlive])
  | true =>
    have hparents := checkParents_verdict fn (Reach.ofEntry fn entry) b (fn.block b).parents []
    have hsuccessors := checkSuccessors_verdict fn b (fn.successors b)
    rw [checkBlock, hlive]
    generalize fn.checkParents (Reach.ofEntry fn entry) b [] (fn.block b).parents = r at hparents ⊢
    cases hparents with
    | missing f listed => exact .missing f listed
    | twice p listed again =>
      exact .broken _ hlive ⟨p, rfl, again.resolve_left (by simp)⟩
    | edgeless p listed live has edgeless =>
      exact .broken _ hlive ⟨p, rfl, listed, live, has_ofEntry_iff.mp has, edgeless⟩
    | fine nodup fresh edge =>
      show BlockVerdict fn entry b (.ok (fn.checkSuccessors b (fn.successors b)))
      generalize fn.checkSuccessors b (fn.successors b) = r at hsuccessors ⊢
      cases hsuccessors with
      | eliminated c mem dead => exact .broken _ hlive ⟨c, rfl, mem_successors_iff.mp mem, dead⟩
      | unregistered c mem live parent =>
        exact .broken _ hlive ⟨c, rfl, mem_successors_iff.mp mem, live, parent⟩
      | fine registered =>
        refine .fine fun _ => ⟨nodup, fun p hp hlive hreach => ?_, fun c hr => ?_, fun c hr => ?_⟩
        · exact edge p hp hlive (has_ofEntry_iff.mpr hreach)
        · exact (registered c (mem_successors_iff.mpr hr)).1
        · exact (registered c (mem_successors_iff.mpr hr)).2

/-! ## The check of a function -/

/-- Either every block is in order or the first block that is not decides. -/
theorem checkBlocks_scan (fn : Func) (g : Reach) (bs : List BlockRef) :
    (fn.checkBlocks g bs = .ok none ∧ ∀ b ∈ bs, fn.checkBlock g b = .ok none) ∨
      ∃ before b after, bs = before ++ b :: after ∧
        (∀ c ∈ before, fn.checkBlock g c = .ok none) ∧ fn.checkBlock g b ≠ .ok none ∧
        fn.checkBlocks g bs = (fn.checkBlock g b).map fun r =>
          r.map fun v => ⟨fn.name, (fn.block b).id, v⟩ := by
  induction bs with
  | nil => exact .inl ⟨rfl, by simp⟩
  | cons b bs ih =>
    by_cases hb : fn.checkBlock g b = .ok none
    · have hrest : fn.checkBlocks g (b :: bs) = fn.checkBlocks g bs := by
        simp only [checkBlocks, hb]
        rfl
      rw [hrest]
      rcases ih with ⟨hnone, hall⟩ | ⟨before, c, after, rfl, hbefore, hc, hscan⟩
      · exact .inl ⟨hnone, List.forall_mem_cons.mpr ⟨hb, hall⟩⟩
      · exact .inr ⟨b :: before, c, after, rfl, List.forall_mem_cons.mpr ⟨hb, hbefore⟩, hc, hscan⟩
    · refine .inr ⟨[], b, bs, rfl, by simp, hb, ?_⟩
      rw [checkBlocks]
      rcases hcheck : fn.checkBlock g b with f | _ | v
      · rfl
      · exact absurd hcheck hb
      · rfl

theorem pairwise_reachable (fn : Func) (g : Reach) (b : BlockRef) :
    (g.reachable fn b).Pairwise fun x y => (fn.block x).id ≤ (fn.block y).id := by
  refine List.Pairwise.imp of_decide_eq_true (List.pairwise_mergeSort ?_ ?_ (g.walk b))
  · intro x y z hxy hyz
    simp only [decide_eq_true_eq] at *
    omega
  · intro x y
    simp only [Bool.or_eq_true, decide_eq_true_eq]
    omega

/-- What an answer about a function with an entry means. A broken block comes first among the
live blocks that break the law. -/
inductive Verdict (fn : Func) (entry : BlockRef) : Except Fault (Option VerifyError) → Prop
  | fine (lawful : ∀ b, fn.Reached entry b → fn.isLive b = true → fn.Lawful entry b) :
      Verdict fn entry (.ok none)
  | broken (b : BlockRef) (v : Violation) (reached : fn.Reached entry b)
      (live : fn.isLive b = true) (breaks : fn.Breaks entry b v)
      (first : ∀ c, fn.Reached entry c → fn.isLive c = true → ¬fn.Lawful entry c →
        (fn.block b).id ≤ (fn.block c).id) :
      Verdict fn entry (.ok (some ⟨fn.name, (fn.block b).id, v⟩))
  | missing (f : Fault) (b : BlockRef) (listed : none ∈ (fn.block b).parents) :
      Verdict fn entry (.error f)

theorem lawful_of_checkBlock (h : fn.checkBlock (Reach.ofEntry fn entry) b = .ok none)
    (hlive : fn.isLive b = true) : fn.Lawful entry b := by
  have hb := checkBlock_verdict fn entry b
  rw [h] at hb
  cases hb with
  | fine lawful => exact lawful hlive

theorem verify_verdict (hentry : fn.entry = some entry) : Verdict fn entry fn.verify := by
  have hmem : ∀ {c}, c ∈ (Reach.ofEntry fn entry).reachable fn entry ↔ fn.Reached entry c :=
    Reach.mem_reachable_ofEntry.trans mem_reachable_iff
  rw [verify, hentry]
  dsimp only
  rcases checkBlocks_scan fn (Reach.ofEntry fn entry) ((Reach.ofEntry fn entry).reachable fn entry)
    with ⟨hnone, hall⟩ | ⟨before, b, after, hsplit, hbefore, hb, hscan⟩
  · rw [hnone]
    exact .fine fun c hc hlive => lawful_of_checkBlock (hall c (hmem.mpr hc)) hlive
  · have hsorted := pairwise_reachable fn (Reach.ofEntry fn entry) entry
    rw [hsplit] at hsorted
    have hfirst : ∀ c, fn.Reached entry c → fn.isLive c = true → ¬fn.Lawful entry c →
        (fn.block b).id ≤ (fn.block c).id := by
      intro c hc hlive hbroken
      have hm := hmem.mpr hc
      rw [hsplit, List.mem_append, List.mem_cons] at hm
      rcases hm with hm | rfl | hm
      · exact absurd (lawful_of_checkBlock (hbefore c hm) hlive) hbroken
      · exact Int.le_refl _
      · exact List.rel_of_pairwise_cons (List.pairwise_append.mp hsorted).2.1 hm
    have hreached : fn.Reached entry b := hmem.mp (by rw [hsplit]; simp)
    have hverdict := checkBlock_verdict fn entry b
    rw [hscan]
    generalize fn.checkBlock (Reach.ofEntry fn entry) b = r at hb hverdict ⊢
    cases hverdict with
    | fine lawful => exact absurd rfl hb
    | broken v live breaks => exact .broken b v hreached live breaks hfirst
    | missing f listed => exact .missing f b listed

/-- Every live block that can be reached obeys the law. -/
def Consistent (fn : Func) (entry : BlockRef) : Prop :=
  ∀ b, fn.Reached entry b → fn.isLive b = true → fn.Lawful entry b

theorem eq_of_id_eq (h : (fn.blocks.map Block.id).Nodup) (hb : b < fn.blocks.length)
    (hc : c < fn.blocks.length) (heq : (fn.block b).id = (fn.block c).id) : b = c := by
  have hid : ∀ x < fn.blocks.length, (fn.blocks.map Block.id)[x]? = some (fn.block x).id := by
    intro x hx
    simp [block, List.getD_eq_getElem?_getD, List.getElem?_eq_getElem hx]
  have hlt : b < (fn.blocks.map Block.id).length := by simpa using hb
  exact (List.getElem?_inj hlt h).mp (by rw [hid b hb, hid c hc, heq])

theorem id_ne_of_nodup (h : (fn.blocks.map Block.id).Nodup) (hb : fn.isLive b = true)
    (hc : fn.isLive c = true) (hne : b ≠ c) : (fn.block b).id ≠ (fn.block c).id :=
  mt (eq_of_id_eq h (isLive_iff.mp hb).1 (isLive_iff.mp hc).1) hne

/-- A check decides the law. If some live block that can be reached breaks it, then the check
names the one with the least number among them, and something that is wrong with it. -/
theorem verify_decides_consistency (hentry : fn.entry = some entry)
    (hids : (fn.blocks.map Block.id).Nodup) (hreal : ∀ b, none ∉ (fn.block b).parents) :
    (fn.verify = .ok none ↔ fn.Consistent entry) ∧
      (¬fn.Consistent entry → ∃ b v, fn.verify = .ok (some ⟨fn.name, (fn.block b).id, v⟩) ∧
        fn.Reached entry b ∧ fn.isLive b = true ∧ ¬fn.Lawful entry b ∧ fn.Breaks entry b v ∧
        ∀ c, fn.Reached entry c → fn.isLive c = true → ¬fn.Lawful entry c → c ≠ b →
          (fn.block b).id < (fn.block c).id) := by
  have hverdict := verify_verdict hentry
  generalize fn.verify = r at hverdict ⊢
  cases hverdict with
  | fine lawful => exact ⟨⟨fun _ => lawful, fun _ => rfl⟩, fun h => absurd lawful h⟩
  | missing f b listed => exact absurd listed (hreal b)
  | broken b v reached live breaks first =>
    have hbroken : ¬fn.Lawful entry b := breaks.not_lawful
    refine ⟨⟨nofun, fun h => absurd (h b reached live) hbroken⟩, fun _ => ?_⟩
    refine ⟨b, v, rfl, reached, live, hbroken, breaks, fun c hc hlive hc' hne => ?_⟩
    have hle := first c hc hlive hc'
    have hid := id_ne_of_nodup hids hlive live hne
    omega

/-- Two blocks break the law. The search meets the one with the greater number first, and the
entry, which has an edge to itself and is no parent of itself, is eliminated and does not count. -/
def twoFaults : Func where
  name := "f"
  entry := some 0
  blocks := [
    { id := 3, ops := [0], dead := true },
    { id := 2, ops := [1], parents := [some 0] },
    { id := 1, ops := [2], parents := [some 0, some 0] }]
  ops := [.region (some 0) [some 1] (some 2), .jump (some 2), .ret none]

theorem twoFaults_reported : twoFaults.entry = some 0 ∧
    (twoFaults.blocks.map Block.id).Nodup ∧ (∀ b, none ∉ (twoFaults.block b).parents) ∧
    twoFaults.verify = .ok (some ⟨"f", 1, .duplicateParent 3⟩) ∧
    (twoFaults.verify = .ok none ↔ twoFaults.Consistent 0) ∧
    (¬twoFaults.Consistent 0 → ∃ b v,
      twoFaults.verify = .ok (some ⟨twoFaults.name, (twoFaults.block b).id, v⟩) ∧
      twoFaults.Reached 0 b ∧ twoFaults.isLive b = true ∧ ¬twoFaults.Lawful 0 b ∧
      twoFaults.Breaks 0 b v ∧
      ∀ c, twoFaults.Reached 0 c → twoFaults.isLive c = true → ¬twoFaults.Lawful 0 c → c ≠ b →
        (twoFaults.block b).id < (twoFaults.block c).id) := by
  have hids : (twoFaults.blocks.map Block.id).Nodup := by decide
  have hreal : ∀ b, none ∉ (twoFaults.block b).parents
    | 0 | 1 | 2 => by decide
    | _ + 3 => List.not_mem_nil
  exact ⟨rfl, hids, hreal, by cbv, verify_decides_consistency rfl hids hreal⟩

end Func

end FlowGraph
