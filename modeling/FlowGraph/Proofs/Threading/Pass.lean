import Mathlib
import FlowGraph.Proofs.Search
import FlowGraph.Proofs.Threading.Simplify

/-! A whole pass. It starts in a sound state, each operation that the walk comes to keeps it
sound, and without rejections the blocks that the walk has entered refer to settled blocks only,
which it has entered or is going to enter. -/

namespace FlowGraph

namespace Threading

variable {fn₀ : Func} {s t : Threading} {b c entry : BlockRef} {o : OpRef} {i j : Nat} {k : Int}

/-- A loaded function is where a pass may start. -/
theorem sound_of_loaded (hw : fn₀.Loaded) (stats : Stats) :
    Sound fn₀ (fun _ _ => False) { fn := fn₀, stats } where
  redirected := by
    refine ⟨.refl _, fun o i j => ?_, fun _ => .inr rfl⟩
    change Option.Rel _ (fn₀.slot? o i j) (fn₀.slot? o i j)
    rcases fn₀.slot? o i j with _ | ⟨k, _ | b⟩
    · exact .none
    · exact .some ⟨rfl, .none⟩
    · exact .some ⟨rfl, .some .refl⟩
  retired := by
    refine ⟨fun b => ?_, by simp, by simp, by simp⟩
    have := hw.live b
    simp [this]
  linked := by
    refine ⟨hw.nodup, fun b hb => ?_, fun p b _ hr => ?_, fun p b _ _ hp => .inl ?_⟩
    · obtain ⟨q, hq, -⟩ := (hw.parents b none).mp hb
      cases hq
    · exact (hw.parents b (some p)).mpr ⟨p, rfl, hr⟩
    · obtain ⟨q, hq, hr⟩ := (hw.parents b (some p)).mp hp
      cases hq
      exact hr

theorem calm_of_removed_nil (h : s.removed = []) : Calm s := by
  intro b hb
  rw [h] at hb
  cases hb

theorem simplify_ensures (hw : fn₀.Loaded) (hs : Sound fn₀ (fun _ _ => False) s)
    (howner : o ∈ (fn₀.block b).ops) :
    Ensures (simplify o (some b)) s fun _ t => Simplified fn₀ o s t := by
  have hfine : Watched.Fine ⟨s, [.state s]⟩ := Watched.fine_of_safe hs.retired.safe
  have hwatched := Watched.simplify_ensures hw hfine hs howner
  exact (Watched.simplify_shows o (some b)).ensures (hwatched.mono fun _ _ h => h.2)

theorem Settled.not_mem (h : Settled s.fn b) (hr : Retired s) : b ∉ s.removed := by
  rcases h with hj | hn
  · exact hr.not_mem_of_no_jump hj
  · exact hr.not_mem_of_loop hn

/-- A settled reference is never changed again. -/
theorem slot_of_settled (hs : Redirected fn₀ s) (ht : Redirected fn₀ t) (hret : Retired t)
    (he : Evolves s t) (hset : ∀ c, s.fn.slot? o i j = some ⟨k, some c⟩ → Settled s.fn c)
    (hslot : t.fn.slot? o i j = some ⟨k, some c⟩) :
    s.fn.slot? o i j = some ⟨k, some c⟩ ∧ Settled t.fn c := by
  obtain ⟨m, hm, -⟩ := ht.slot_from hslot
  obtain ⟨c', hc', -⟩ := hs.slot_of hm
  have hsettled := (hset c' hc').evolves he
  have hkept := he.slots o i j k c' hc' (hsettled.not_mem hret)
  rw [hslot] at hkept
  cases hkept
  exact ⟨hc', hsettled⟩

/-! ## One block -/

/-- What the walk leaves behind when the operations `ops` of a block are threaded, and `next`
are the blocks to go on with. -/
structure Swept (fn₀ : Func) (ops : List OpRef) (s : Threading) (next : List BlockRef)
    (t : Threading) : Prop where
  sound : Sound fn₀ (fun _ _ => False) t
  evolves : Evolves s t
  calm : t.stats.phiRejects = s.stats.phiRejects → Calm s → Calm t
  settled : t.stats.phiRejects = s.stats.phiRejects → Calm s → ∀ o ∈ ops,
    ∀ i j k c, t.fn.slot? o i j = some ⟨k, some c⟩ → Settled t.fn c ∧ c ∈ next

theorem visitOps_ensures (hw : fn₀.Loaded) {ops : List OpRef} (hops : ops ⊆ (fn₀.block b).ops)
    (hs : Sound fn₀ (fun _ _ => False) s) :
    Ensures (Visitor.visitOps (fun s : Threading => s.fn) [visitor] b ops) s fun next t =>
      Swept fn₀ ops s next t := by
  induction ops generalizing s with
  | nil => exact .pure ⟨hs, .refl s, fun _ h => h, by simp⟩
  | cons o rest ih =>
    have howner : o ∈ (fn₀.block b).ops := hops List.mem_cons_self
    refine .bind (.bind ((simplify_ensures hw hs howner).mono fun _ s₁ h₁ => .pure ?_))
    refine .bind (.get (.bind ((ih (fun x hx => hops (List.mem_cons_of_mem _ hx)) h₁.sound).mono
      fun next t h₂ => .pure ?_)))
    refine ⟨h₂.sound, h₁.evolves.trans h₂.evolves, fun he hc => ?_, fun he hc x hx i j k c hslot => ?_⟩
    · obtain ⟨he₁, he₂⟩ := h₁.evolves.rejects_eq h₂.evolves he
      exact h₂.calm he₂ (h₁.calm he₁ hc)
    · obtain ⟨he₁, he₂⟩ := h₁.evolves.rejects_eq h₂.evolves he
      rcases List.mem_cons.mp hx with rfl | hx
      · obtain ⟨hslot₁, hset⟩ := slot_of_settled h₁.sound.redirected h₂.sound.redirected
          h₂.sound.retired h₂.evolves (fun c hc' => h₁.settled he₁ hc i j k c hc') hslot
        refine ⟨hset, List.mem_append_left _ (List.mem_filter.mpr ⟨?_, ?_⟩)⟩
        · exact Op.mem_blocks_iff.mpr ⟨i, j, k, hslot₁⟩
        · have hout := (h₁.settled he₁ hc i j k c hslot₁).not_mem h₁.sound.retired
          rw [← h₁.sound.retired.dead] at hout
          exact Func.isLive_iff.mpr ⟨h₁.sound.redirected.bound hw hslot₁, by simpa using hout⟩
      · obtain ⟨hset, hnext⟩ := h₂.settled he₂ (h₁.calm he₁ hc) x hx i j k c hslot
        exact ⟨hset, List.mem_append_right _ hnext⟩

theorem visitBlock_ensures (hw : fn₀.Loaded) (hs : Sound fn₀ (fun _ _ => False) s) :
    Ensures (Visitor.visitBlock (fun s : Threading => s.fn) [visitor] b) s fun next t =>
      Swept fn₀ (fn₀.block b).ops s next t := by
  refine .bind (.bind (.pure (.pure (.bind (.get (.bind ?_))))))
  rw [hs.redirected.alike.blockOps]
  refine (visitOps_ensures hw (fun _ h => h) hs).mono fun next t h => ?_
  exact .bind (.bind (.pure (.pure (.pure h))))

/-! ## The walk -/

/-- In the middle of the walk that began in the state `s`. -/
structure Walked (fn₀ : Func) (entry : BlockRef) (s : Threading)
    (unvisited stack : List BlockRef) (t : Threading) : Prop where
  sound : Sound fn₀ (fun _ _ => False) t
  evolves : Evolves s t
  nodup : unvisited.Nodup
  start : entry ∉ unvisited ∨ entry ∈ stack
  calm : t.stats.phiRejects = s.stats.phiRejects → Calm t
  closed : t.stats.phiRejects = s.stats.phiRejects → ∀ v < fn₀.blocks.length, v ∉ unvisited →
    ∀ o ∈ (fn₀.block v).ops, ∀ i j k c, t.fn.slot? o i j = some ⟨k, some c⟩ →
      Settled t.fn c ∧ (c ∉ unvisited ∨ c ∈ stack)

theorem Walked.skip {unvisited rest : List BlockRef} (hb : b ∉ unvisited)
    (h : Walked fn₀ entry s unvisited (b :: rest) t) : Walked fn₀ entry s unvisited rest t := by
  have hdrop : ∀ c, c ∉ unvisited ∨ c ∈ b :: rest → c ∉ unvisited ∨ c ∈ rest := by
    rintro c (hc | hc)
    · exact .inl hc
    · rcases List.mem_cons.mp hc with rfl | hc
      · exact .inl hb
      · exact .inr hc
  exact ⟨h.sound, h.evolves, h.nodup, hdrop entry h.start, h.calm, fun he v hv hvis o ho i j k c hs =>
    (h.closed he v hv hvis o ho i j k c hs).imp id (hdrop c)⟩

theorem Walked.visit {unvisited rest next : List BlockRef} {u : Threading}
    (h : Walked fn₀ entry s unvisited (b :: rest) t)
    (hu : Swept fn₀ (fn₀.block b).ops t next u) :
    Walked fn₀ entry s (unvisited.erase b) (next.filter (· ∈ unvisited.erase b) ++ rest) u := by
  have hdrop : ∀ c, c ∉ unvisited ∨ c ∈ b :: rest →
      c ∉ unvisited.erase b ∨ c ∈ next.filter (· ∈ unvisited.erase b) ++ rest := by
    rintro c (hc | hc)
    · exact .inl fun hm => hc (List.mem_of_mem_erase hm)
    · rcases List.mem_cons.mp hc with rfl | hc
      · exact .inl h.nodup.not_mem_erase
      · exact .inr (List.mem_append_right _ hc)
  refine ⟨hu.sound, h.evolves.trans hu.evolves, h.nodup.erase b, hdrop entry h.start, ?_, ?_⟩
  · intro he
    obtain ⟨he₁, he₂⟩ := h.evolves.rejects_eq hu.evolves he
    exact hu.calm he₂ (h.calm he₁)
  · intro he v hv hvis o ho i j k c hslot
    obtain ⟨he₁, he₂⟩ := h.evolves.rejects_eq hu.evolves he
    by_cases hvb : v = b
    · subst hvb
      obtain ⟨hset, hnext⟩ := hu.settled he₂ (h.calm he₁) o ho i j k c hslot
      refine ⟨hset, Classical.or_iff_not_imp_left.mpr fun hc => List.mem_append_left _ ?_⟩
      exact List.mem_filter.mpr ⟨hnext, by simpa using hc⟩
    · have hvis' : v ∉ unvisited := fun hm => hvis ((List.mem_erase_of_ne hvb).mpr hm)
      have hclosed := h.closed he₁ v hv hvis' o ho i j k
      obtain ⟨hslot₁, hset⟩ := slot_of_settled h.sound.redirected hu.sound.redirected
        hu.sound.retired hu.evolves (fun c hc => (hclosed c hc).1) hslot
      exact ⟨hset, hdrop c (hclosed c hslot₁).2⟩

/-- What a pass that started with the counters `stats` leaves behind. Without rejections the blocks
that it entered are closed under references. -/
structure Passed (fn₀ : Func) (entry : BlockRef) (stats : Stats) (t : Threading) : Prop where
  sound : Sound fn₀ (fun _ _ => False) t
  evolves : Evolves { fn := fn₀, stats } t
  closed : t.stats.phiRejects = stats.phiRejects → ∃ entered : BlockRef → Prop, entered entry ∧
    ∀ v, entered v → ∀ c, t.fn.Refers v c → Settled t.fn c ∧ entered c

theorem run_ensures (hw : fn₀.Loaded) (hentry : fn₀.entry = some entry) (stats : Stats) :
    Ensures run { fn := fn₀, stats } fun _ t => Passed fn₀ entry stats t := by
  have hs := sound_of_loaded hw stats
  have hlt : entry < fn₀.blocks.length := by
    obtain ⟨e, he, hlt⟩ := hw.entry
    cases hentry.symm.trans he
    exact hlt
  refine .bind (.get ?_)
  rw [hentry]
  refine .bind (.get ?_)
  have hinit : Walked fn₀ entry { fn := fn₀, stats } (List.range fn₀.blocks.length) [entry]
      { fn := fn₀, stats } := by
    refine ⟨hs, .refl _, List.nodup_range, .inr (by simp), fun _ => calm_of_removed_nil rfl, ?_⟩
    intro _ v hv hvis
    exact absurd (List.mem_range.mpr hv) hvis
  refine (Visitor.walkFrom_ensures (fun _ _ _ _ hb h => h.skip hb)
    (fun unvisited b rest t _ h => (visitBlock_ensures hw h.sound).mono fun next u hu => h.visit hu)
    _ _ _ hinit).mono ?_
  rintro _ t ⟨unvisited, h⟩
  refine ⟨h.sound, h.evolves, fun he => ⟨fun v => v < fn₀.blocks.length ∧ v ∉ unvisited, ?_, ?_⟩⟩
  · exact ⟨hlt, h.start.resolve_right (by simp)⟩
  · rintro v ⟨hv, hvis⟩ c ⟨o, ho, i, j, k, hslot⟩
    rw [h.sound.redirected.alike.blockOps] at ho
    obtain ⟨hset, hc⟩ := h.closed he v hv hvis o ho i j k c hslot
    refine ⟨hset, ?_, hc.resolve_right (by simp)⟩
    rw [← h.sound.redirected.alike.blocks]
    exact h.sound.redirected.bound hw hslot

/-- A pass over a loaded function never breaks off. -/
theorem threadJumps_passed (hw : fn₀.Loaded) (hentry : fn₀.entry = some entry) (stats : Stats) :
    ∃ t : Threading, threadJumps.run ⟨fn₀, stats⟩ = (.ok (), t.toWork) ∧
      Passed fn₀ entry stats t := by
  obtain ⟨_, t, hrun, hpassed⟩ := run_ensures hw hentry stats
  have hunfold : threadJumps.run ⟨fn₀, stats⟩ =
      ((run.run { fn := fn₀, stats }).1, (run.run { fn := fn₀, stats }).2.toWork) := rfl
  refine ⟨t, ?_, hpassed⟩
  rw [hunfold, hrun]

/-- Without rejections the references of a reachable block end at settled blocks, and the reachable
blocks other than the entry are settled. -/
theorem Passed.reachable_settled {stats : Stats} (h : Passed fn₀ entry stats t)
    (he : t.stats.phiRejects = stats.phiRejects) (hb : b ∈ t.fn.reachable entry) :
    (b = entry ∨ Settled t.fn b) ∧ ∀ c, t.fn.Refers b c → Settled t.fn c := by
  obtain ⟨entered, hentry, hclosed⟩ := h.closed he
  have hreached := Func.reachable_of_closed (P := fun b => entered b ∧ (b = entry ∨ Settled t.fn b))
    ⟨hentry, .inl rfl⟩ (fun x hx c hr _ => ?_) hb
  · exact ⟨hreached.2, fun c hr => (hclosed b hreached.1 c hr).1⟩
  · obtain ⟨hset, hc⟩ := hclosed x hx.1 c hr
    exact ⟨hc, .inr hset⟩

theorem Passed.liveEdges {stats : Stats} (hw : fn₀.Loaded) (h : Passed fn₀ entry stats t)
    (he : t.stats.phiRejects = stats.phiRejects) : t.fn.LiveEdges entry := by
  intro b hb c hr
  have hout := ((h.reachable_settled he hb).2 c hr).not_mem h.sound.retired
  rw [← h.sound.retired.dead] at hout
  obtain ⟨o, -, i, j, k, hslot⟩ := hr
  exact Func.isLive_iff.mpr ⟨h.sound.redirected.bound hw hslot, by simpa using hout⟩

end Threading

end FlowGraph
