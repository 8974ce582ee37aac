import Mathlib
import FlowGraph.Proofs.Slots

/-! Reading an attribute and writing it back. References are read in rising order of their keys.
Writing under the keys that were read puts the new references there, in whatever order they come,
and leaves the rest of the operation alone. Only one operation fits that description, so writing
twice is writing the last references once. -/

namespace FlowGraph

namespace KeyMap

variable {α : Type}

theorem get?_eq_some_iff {m : KeyMap α} {k : Int64} {v : α} :
    m.get? k = some v ↔ (k, v) ∈ m.entries := by
  have hfound : ∀ e, m.entries.find? (·.1 = k) = some e → e ∈ m.entries ∧ e.1 = k := by
    intro e he
    exact ⟨List.mem_of_find?_eq_some he, by simpa using List.find?_some he⟩
  unfold get?
  constructor
  · intro h
    obtain ⟨e, he, rfl⟩ := Option.map_eq_some_iff.mp h
    obtain ⟨hmem, rfl⟩ := hfound e he
    exact hmem
  · intro h
    have hsome : (m.entries.find? (·.1 = k)).isSome := by simpa using ⟨v, h⟩
    obtain ⟨e, he⟩ := Option.isSome_iff_exists.mp hsome
    obtain ⟨hmem, hk⟩ := hfound e he
    have heq : e = (k, v) := List.inj_on_of_nodup_map m.nodup_keys hmem h hk
    rw [he, heq]
    rfl

theorem ext_mem {m n : KeyMap α} (h : ∀ e, e ∈ m.entries ↔ e ∈ n.entries) : m = n := by
  apply eq_of_perm
  exact (List.perm_ext_iff_of_nodup m.nodup_keys.of_map n.nodup_keys.of_map).mpr h

theorem mem_insertEntry_iff {k : Int64} {v : α} {e : Int64 × α} {l : List (Int64 × α)}
    (h : l.Pairwise (fun a b => a.1 < b.1)) :
    e ∈ insertEntry k v l ↔ e = (k, v) ∨ e ∈ l ∧ e.1 ≠ k := by
  induction l with
  | nil => simp [insertEntry]
  | cons x l ih =>
    obtain ⟨hx, hl⟩ := List.pairwise_cons.mp h
    rw [insertEntry]
    split
    · -- the key is below all others
      rename_i hlt
      have hne : ∀ y ∈ x :: l, y.1 ≠ k := by
        intro y hy hk
        rcases List.mem_cons.mp hy with rfl | hy
        · exact Int64.lt_irrefl (hk ▸ hlt)
        · exact Int64.lt_irrefl (hk ▸ Int64.lt_trans hlt (hx y hy))
      grind
    · split
      · -- the entry with the key is the first one and goes
        rename_i hk
        have hne : ∀ y ∈ l, y.1 ≠ k := fun y hy hy' => Int64.lt_irrefl (hy' ▸ hk ▸ hx y hy)
        grind
      · grind

@[simp] theorem mem_insert {m : KeyMap α} {k : Int64} {v : α} {e : Int64 × α} :
    e ∈ (m.insert k v).entries ↔ e = (k, v) ∨ e ∈ m.entries ∧ e.1 ≠ k :=
  mem_insertEntry_iff m.sorted

/-- Values under two keys may be put in either order. -/
theorem insert_comm (m : KeyMap α) {k k' : Int64} (v v' : α) (h : k ≠ k') :
    (m.insert k v).insert k' v' = (m.insert k' v').insert k v := by
  apply ext_mem
  intro e
  simp only [mem_insert]
  grind

end KeyMap

namespace Slot

/-! ## Keys -/

theorem pairwise_keys (s : Slot) : (s.targets.map Target.key).Pairwise (· < ·) := by
  cases s with
  | single b => exact List.pairwise_singleton _ _
  | list bs =>
    have hkeys : (list bs).targets.map Target.key = (List.range' 0 bs.length).map Int.ofNat := by
      rw [← List.zipIdx_map_snd]
      simp only [targets, List.map_map]
      rfl
    rw [hkeys, List.pairwise_map]
    exact (List.pairwise_lt_range' 1).imp Int.ofNat_lt.mpr
  | keyed m =>
    simp only [targets, List.map_map, List.pairwise_map, Function.comp_apply]
    exact (m.getD .empty).sorted.imp Int64.lt_iff_toInt_lt.mp

/-- A map is read as what it holds under all 64-bit keys. -/
theorem mem_targets_keyed {m : Option (KeyMap (Option BlockRef))} {k : Int}
    {b : Option BlockRef} : ⟨k, b⟩ ∈ (keyed m).targets ↔
      ∃ c : Int64, c.toInt = k ∧ m.bind (·.get? c) = some b := by
  cases m with
  | none => simp [targets, KeyMap.empty]
  | some m => simp [targets, KeyMap.get?_eq_some_iff, and_comm]

theorem nodup_keys {s : Slot} {tt : List Target}
    (h : tt.map Target.key = s.targets.map Target.key) : (tt.map Target.key).Nodup :=
  h ▸ s.pairwise_keys.imp Int.ne_of_lt

/-! ## Shapes -/

/-- Two single references, lists of one length, or maps with the same keys. Maps that were never
made are of a shape of their own. -/
inductive SameShape : Slot → Slot → Prop
  | single {b b' : Option BlockRef} : SameShape (.single b) (.single b')
  | list {bs bs' : List (Option BlockRef)} : bs'.length = bs.length →
      SameShape (.list bs) (.list bs')
  | unmade : SameShape (.keyed none) (.keyed none)
  | keyed {m m' : KeyMap (Option BlockRef)} : m'.keys = m.keys →
      SameShape (.keyed (some m)) (.keyed (some m'))

theorem sameShape_of_blank {s s' : Slot} (h : s'.blank = s.blank) : s.SameShape s' := by
  cases s with
  | single b =>
    cases s' with
    | single b' => exact .single
    | _ => simp [blank] at h
  | list bs =>
    cases s' with
    | list bs' =>
      simp only [blank, list.injEq] at h
      exact .list (by simpa using congrArg List.length h)
    | _ => simp [blank] at h
  | keyed m =>
    cases s' with
    | keyed m' =>
      cases m with
      | none =>
        cases m' with
        | none => exact .unmade
        | some m' => simp [blank] at h
      | some m =>
        cases m' with
        | none => simp [blank] at h
        | some m' =>
          simp only [blank, Option.map_some, keyed.injEq, Option.some.injEq] at h
          have hentries := congrArg (fun n : KeyMap (Option BlockRef) => n.entries.map (·.1)) h
          exact .keyed (by simpa [KeyMap.map, KeyMap.keys, Function.comp_def] using hentries)
    | _ => simp [blank] at h

/-! ## The order of writing -/

/-- Writes that commute under different keys may come in any order. -/
theorem foldl_perm {β : Type} {f : β → Target → β} {tt tt' : List Target}
    (hkeys : (tt.map Target.key).Nodup) (h : tt'.Perm tt)
    (hcomm : ∀ x ∈ tt, ∀ y ∈ tt, x.key ≠ y.key → ∀ z, f (f z x) y = f (f z y) x) (z : β) :
    tt'.foldl f z = tt.foldl f z := by
  refine (h.symm.foldl_eq' (fun x hx y hy z => ?_) z).symm
  by_cases hxy : x.key = y.key
  · rw [List.inj_on_of_nodup_map hkeys hx hy hxy]
  · exact hcomm x hx y hy hxy z

theorem storeList_eq_foldl (tt : List Target) : ∀ bs : List (Option BlockRef),
    (∀ t ∈ tt, 0 ≤ t.key ∧ t.key < bs.length) →
      storeList bs tt = (tt.foldl (fun bs t => bs.set t.key.toNat t.block) bs, none) := by
  induction tt with
  | nil => intro bs _; rfl
  | cons t tt ih =>
    intro bs h
    rw [storeList, if_pos (h t List.mem_cons_self), List.foldl_cons, ih]
    intro x hx
    rw [List.length_set]
    exact h x (List.mem_cons_of_mem t hx)

theorem storeList_perm {bs : List (Option BlockRef)} {tt tt' : List Target}
    (hkeys : (tt.map Target.key).Nodup) (hrange : ∀ t ∈ tt, 0 ≤ t.key ∧ t.key < bs.length)
    (h : tt'.Perm tt) : storeList bs tt' = storeList bs tt := by
  have hrange' : ∀ t ∈ tt', 0 ≤ t.key ∧ t.key < bs.length := fun t ht =>
    hrange t (h.mem_iff.mp ht)
  rw [storeList_eq_foldl tt' bs hrange', storeList_eq_foldl tt bs hrange]
  refine congrArg (·, none) (foldl_perm hkeys h (fun x hx y hy hxy z => ?_) bs)
  apply List.set_comm
  have hx := hrange x hx
  have hy := hrange y hy
  omega

theorem storeKeyed_perm {m : Option (KeyMap (Option BlockRef))} {tt tt' : List Target}
    (hkeys : (tt.map Target.key).Nodup) (hfit : ∀ t ∈ tt, (Int64.ofInt t.key).toInt = t.key)
    (h : tt'.Perm tt) : storeKeyed m tt' = storeKeyed m tt := by
  by_cases htt : tt = []
  · subst htt
    rw [h.eq_nil]
  · have htt' : tt' ≠ [] := fun e => htt (List.nil_perm.mp (e ▸ h))
    rw [storeKeyed_of_ne_nil htt', storeKeyed_of_ne_nil htt]
    refine congrArg some (foldl_perm hkeys h (fun x hx y hy hxy z => ?_) _)
    apply KeyMap.insert_comm
    intro heq
    exact hxy (by rw [← hfit x hx, heq, hfit y hy])

/-- References with the keys that were read may be written in any order. -/
theorem store_perm {s : Slot} {tt tt' : List Target} (name : Text)
    (hk : tt.map Target.key = s.targets.map Target.key) (h : tt'.Perm tt) :
    s.store name tt' = s.store name tt := by
  have hkeys := nodup_keys hk
  cases s with
  | single b =>
    obtain ⟨t, rfl, -⟩ := List.map_eq_singleton_iff.mp hk
    rw [List.perm_singleton.mp h]
  | list bs =>
    have hrange : ∀ t ∈ tt, 0 ≤ t.key ∧ t.key < bs.length := by
      intro t ht
      have hmem : t.key ∈ (list bs).targets.map Target.key := hk ▸ List.mem_map_of_mem ht
      simp only [targets, List.map_map, List.mem_map, Function.comp_apply, Prod.exists] at hmem
      obtain ⟨b, i, hi, hkey⟩ := hmem
      have hlt := List.snd_lt_of_mem_zipIdx hi
      omega
    simp only [store, storeList_perm hkeys hrange h]
  | keyed m => simp only [store, storeKeyed_perm hkeys (toInt_ofInt_key hk) h]

end Slot

namespace Op

variable {op op' op'' : Op} {i : Nat} {a a' : Attribute} {tt tt' : List Target}

/-- The attributes hold all references, so they and the rest make up the operation. -/
theorem eq_of_attributes (hb : op'.blank = op.blank) (ha : op'.attributes = op.attributes) :
    op' = op := by
  cases op <;> cases op' <;> simp_all [blank, attributes]

/-- The operation `op'` is `op` with the references `tt` in attribute `i`. The other attributes are
the same, and so is what is left when all references are blanked out: the kind, the values, the
texts and the shape of every attribute. -/
structure Updated (op : Op) (i : Nat) (tt : List Target) (op' : Op) : Prop where
  rest : op'.blank = op.blank
  others : ∀ j, j ≠ i → op'.attributes[j]? = op.attributes[j]?
  written : ∃ a a', op.attributes[i]? = some a ∧ op'.attributes[i]? = some a' ∧
    a'.name = a.name ∧ a.slot.SameShape a'.slot ∧ a'.slot.targets = tt

namespace Updated

theorem of_blank (hb : op'.blank = op.blank)
    (hothers : ∀ j, j ≠ i → op'.attributes[j]? = op.attributes[j]?)
    (ha : op.attributes[i]? = some a) (ha' : op'.attributes[i]? = some a')
    (ht : a'.slot.targets = tt) : op.Updated i tt op' := by
  obtain ⟨x, hx, hname, hslot⟩ := attribute_of_blank hb ha
  obtain rfl : a' = x := Option.some.inj (ha'.symm.trans hx)
  exact ⟨hb, hothers, a, a', ha, ha', hname, Slot.sameShape_of_blank hslot, ht⟩

/-- The later references replace the earlier ones. -/
theorem trans (h : op.Updated i tt op') (h' : op'.Updated i tt' op'') : op.Updated i tt' op'' := by
  obtain ⟨a, -, ha, -⟩ := h.written
  obtain ⟨-, a'', -, ha'', -, -, ht⟩ := h'.written
  refine of_blank (h'.rest.trans h.rest) (fun j hj => ?_) ha ha'' ht
  rw [h'.others j hj, h.others j hj]

theorem unique (h : op.Updated i tt op') (h' : op.Updated i tt op'') : op' = op'' := by
  have hb : op'.blank = op''.blank := h.rest.trans h'.rest.symm
  apply eq_of_attributes hb
  apply List.ext_getElem?
  intro j
  by_cases hj : j = i
  · subst hj
    obtain ⟨-, x, -, hx, -, -, ht⟩ := h.written
    obtain ⟨-, y, -, hy, -, -, ht'⟩ := h'.written
    obtain ⟨z, hz, hname, hblank⟩ := attribute_of_blank hb hy
    obtain rfl : x = z := Option.some.inj (hx.symm.trans hz)
    have hslot : x.slot = y.slot := Slot.eq_of_targets hblank (ht.trans ht'.symm)
    cases x
    cases y
    simp_all
  · rw [h.others j hj, h'.others j hj]

end Updated

theorem store_updated (ha : op.attributes[i]? = some a)
    (hk : tt.map Target.key = a.slot.targets.map Target.key) :
    ∃ op', op.store i tt = (op', none) ∧ op.Updated i tt op' := by
  obtain ⟨op', s, hstore, hblank, ht, hattr⟩ := store_attributes ha hk
  have hlt := (List.getElem?_eq_some_iff.mp ha).1
  have ha' : op'.attributes[i]? = some { a with slot := s } := by
    rw [hattr, List.getElem?_set_self hlt]
  refine ⟨op', hstore, .of_blank hblank (fun j hj => ?_) ha ha' ht⟩
  rw [hattr, List.getElem?_set_ne hj.symm]

theorem store_perm (ha : op.attributes[i]? = some a)
    (hk : tt.map Target.key = a.slot.targets.map Target.key) (h : tt'.Perm tt) :
    op.store i tt' = op.store i tt := by
  simp only [store, ha, Slot.store_perm a.name hk h]

/-- Of two writes only the second one counts. -/
theorem Updated.store_eq (h : op.Updated i tt op') (ha : op.attributes[i]? = some a)
    (hk : tt.map Target.key = a.slot.targets.map Target.key)
    (hk' : tt'.map Target.key = a.slot.targets.map Target.key) :
    op'.store i tt' = op.store i tt' := by
  obtain ⟨-, a', -, ha', -, -, ht⟩ := h.written
  have hkeys : tt'.map Target.key = a'.slot.targets.map Target.key := by rw [ht, hk, hk']
  obtain ⟨op₁, hstore₁, h₁⟩ := store_updated ha' hkeys
  obtain ⟨op₂, hstore₂, h₂⟩ := store_updated ha hk'
  rw [hstore₁, hstore₂, (h.trans h₁).unique h₂]

/-- Reading an attribute and writing it back obey the laws of a lens. References are read in rising
order of their keys, and from a map under exactly the keys that it has. Writing what was read
changes nothing. Writing references under the keys that were read, in whatever order they come,
makes them what is read and changes nothing else. Of two such writes only the last one counts. -/
theorem store_obeys_lens_laws (ha : op.attributes[i]? = some a) :
    (a.slot.targets.map Target.key).Pairwise (· < ·) ∧
    (∀ m, a.slot = .keyed m → ∀ k b, ⟨k, b⟩ ∈ a.slot.targets ↔
      ∃ c : Int64, c.toInt = k ∧ m.bind (·.get? c) = some b) ∧
    op.store i a.slot.targets = (op, none) ∧
    ∀ tt, tt.map Target.key = a.slot.targets.map Target.key →
      ∃ op', op.store i tt = (op', none) ∧ op.Updated i tt op' ∧
        (∀ tt', tt'.Perm tt → op.store i tt' = (op', none)) ∧
        ∀ tt', tt'.map Target.key = a.slot.targets.map Target.key →
          op'.store i tt' = op.store i tt' := by
  refine ⟨a.slot.pairwise_keys, ?_, store_targets ha, ?_⟩
  · intro m hm k b
    rw [hm]
    exact Slot.mem_targets_keyed
  · intro tt hk
    obtain ⟨op', hstore, h⟩ := store_updated ha hk
    refine ⟨op', hstore, h, fun tt' hperm => ?_, fun tt' hk' => h.store_eq ha hk hk'⟩
    rw [store_perm ha hk hperm, hstore]

/-- Cases at both ends of the keys and between them. -/
def dispatchCases : KeyMap (Option BlockRef) :=
  .ofList [(7, some 1), (-1, none), (Int64.maxValue, some 3), (Int64.minValue, some 1)]

def dispatch : Op := .switch (some 0) (some dispatchCases) (some 2)

def rerouted : List Target :=
  [⟨-9223372036854775808, some 2⟩, ⟨-1, some 1⟩, ⟨7, none⟩, ⟨9223372036854775807, some 1⟩]

/-- The new references go in backwards as well, and the old ones undo it. -/
theorem dispatch_written_back :
    dispatch.attributes[0]? = some ⟨"cases", .keyed (some dispatchCases)⟩ ∧
    rerouted.map Target.key = (Slot.keyed (some dispatchCases)).targets.map Target.key ∧
    ∃ op', dispatch.store 0 rerouted = (op', none) ∧ dispatch.Updated 0 rerouted op' ∧
      dispatch.store 0 rerouted.reverse = (op', none) ∧
      op'.store 0 (Slot.keyed (some dispatchCases)).targets = (dispatch, none) := by
  have ha : dispatch.attributes[0]? = some ⟨"cases", .keyed (some dispatchCases)⟩ := rfl
  have hk : rerouted.map Target.key =
      (Slot.keyed (some dispatchCases)).targets.map Target.key := by decide +kernel
  obtain ⟨-, -, hread, hwrite⟩ := store_obeys_lens_laws ha
  obtain ⟨op', hstore, h, hperm, hlast⟩ := hwrite rerouted hk
  exact ⟨ha, hk, op', hstore, h, hperm _ (List.reverse_perm _), (hlast _ rfl).trans hread⟩

end Op

end FlowGraph
