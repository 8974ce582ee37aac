import Mathlib
import FlowGraph.Func

/-! The references of an operation as a table: attribute `i`, place `j`. Writing references with
the keys that were read never breaks off, changes one attribute and keeps the shape, which is
what is left of an operation when every reference is blanked out. -/

namespace FlowGraph

namespace KeyMap

variable {α β : Type}

theorem ext {m n : KeyMap α} (h : m.entries = n.entries) : m = n := by
  cases m; cases n; cases h; rfl

theorem nodup_keys (m : KeyMap α) : (m.entries.map (·.1)).Nodup := by
  refine (List.pairwise_map.mpr m.sorted).imp fun hlt he => ?_
  exact Int64.lt_irrefl (he ▸ hlt)

/-- Two maps keep the same entries in the same order. -/
theorem eq_of_perm {m n : KeyMap α} (h : m.entries.Perm n.entries) : m = n := by
  refine ext (h.eq_of_pairwise (fun a b _ _ hab hba => ?_) m.sorted n.sorted)
  exact absurd (Int64.lt_trans hab hba) Int64.lt_irrefl

@[simp] theorem getD_made? (m : KeyMap α) : m.made?.getD empty = m := by
  unfold made?
  split
  · rename_i h
    exact ext (List.isEmpty_iff.mp h).symm
  · rfl

theorem insertEntry_append {k : Int64} {v w : α} {l r : List (Int64 × α)}
    (h : (l ++ (k, w) :: r).Pairwise (fun a b => a.1 < b.1)) :
    insertEntry k v (l ++ (k, w) :: r) = l ++ (k, v) :: r := by
  induction l with
  | nil => simp [insertEntry, Int64.lt_irrefl]
  | cons x l ih =>
    obtain ⟨hx, hl⟩ := List.pairwise_cons.mp h
    have hlt : x.1 < k := hx (k, w) (by simp)
    have hge : ¬ k < x.1 := Int64.not_lt.mpr (Int64.le_of_lt hlt)
    have hne : k ≠ x.1 := fun e => Int64.lt_irrefl (e ▸ hlt)
    simp [insertEntry, hge, hne, ih hl]

theorem mem_foldl_insert {e : Int64 × α} (es : List (Int64 × α)) : ∀ m : KeyMap α,
    e ∈ (es.foldl (fun m e => m.insert e.1 e.2) m).entries → e ∈ m.entries ∨ e ∈ es := by
  induction es with
  | nil => intro m h; exact .inl h
  | cons x es ih =>
    intro m h
    rcases ih _ h with h | h
    · rcases mem_insertEntry h with rfl | h
      · exact .inr List.mem_cons_self
      · exact .inl h
    · exact .inr (List.mem_cons_of_mem x h)

/-- Writing a value under every key in turn replaces all values. -/
theorem foldl_insert_entries (es : List (Int64 × α)) : ∀ (m : KeyMap α) (l r : List (Int64 × α)),
    m.entries = l ++ r → r.map (·.1) = es.map (·.1) →
    (es.foldl (fun m e => m.insert e.1 e.2) m).entries = l ++ es := by
  induction es with
  | nil =>
    intro m l r hm hr
    have hr : r = [] := by simpa using hr
    simp [hm, hr]
  | cons e es ih =>
    intro m l r hm hr
    cases r with
    | nil => simp at hr
    | cons x r =>
      simp only [List.map_cons, List.cons.injEq] at hr
      have hins : (m.insert e.1 e.2).entries = l ++ (e.1, e.2) :: r := by
        have hx : (e.1, x.2) = x := by rw [← hr.1]
        have hs := m.sorted
        rw [hm, ← hx] at hs
        simp only [insert, hm]
        rw [← hx]
        exact insertEntry_append hs
      have := ih (m.insert e.1 e.2) (l ++ [e]) r (by simpa using hins) hr.2
      simpa using this

end KeyMap

namespace Slot

/-- The slot without its references. -/
def blank : Slot → Slot
  | single _ => single none
  | list bs => list (bs.map fun _ => none)
  | keyed m => keyed (m.map (·.map fun _ => none))

theorem storeList_append (tt : List Target) : ∀ (l r : List (Option BlockRef)),
    tt.map Target.key = (r.zipIdx l.length).map (fun p => (p.2 : Int)) →
    storeList (l ++ r) tt = (l ++ tt.map Target.block, none) := by
  induction tt with
  | nil =>
    intro l r h
    have hr : r = [] := by simpa using h.symm
    simp [storeList, hr]
  | cons t tt ih =>
    intro l r h
    cases r with
    | nil => simp at h
    | cons x r =>
      simp only [List.map_cons, List.zipIdx_cons, List.cons.injEq] at h
      have hset : (l ++ x :: r).set l.length t.block = (l ++ [t.block]) ++ r := by simp
      have hrange : 0 ≤ t.key ∧ t.key < (l ++ x :: r).length := by
        rw [h.1, List.length_append, List.length_cons]; omega
      simp only [storeList, if_pos hrange]
      rw [h.1, Int.toNat_natCast, hset, ih (l ++ [t.block]) r (by simpa using h.2)]
      simp

theorem store_single {b : Option BlockRef} {tt : List Target} (name : Text)
    (h : tt.map Target.key = (single b).targets.map Target.key) :
    ∃ s', (single b).store name tt = (s', none) ∧ s'.targets = tt ∧
      s'.blank = (single b).blank := by
  obtain ⟨t, rfl, ht⟩ := List.map_eq_singleton_iff.mp h
  refine ⟨single t.block, rfl, ?_, rfl⟩
  cases t
  simp_all [targets]

theorem store_list {bs : List (Option BlockRef)} {tt : List Target} (name : Text)
    (h : tt.map Target.key = (list bs).targets.map Target.key) :
    ∃ s', (list bs).store name tt = (s', none) ∧ s'.targets = tt ∧
      s'.blank = (list bs).blank := by
  have hk : tt.map Target.key = bs.zipIdx.map (fun p => (p.2 : Int)) := by
    simpa [targets, Function.comp_def] using h
  have hlen : tt.length = bs.length := by simpa using congrArg List.length hk
  refine ⟨list (tt.map Target.block), ?_, ?_, ?_⟩
  · have hstore := storeList_append tt [] bs hk
    simp only [List.nil_append] at hstore
    simp [store, hstore]
  · apply List.ext_getElem (by simp [targets])
    intro n h₁ h₂
    have hn : (tt.map Target.key)[n]? = some (n : Int) := by
      rw [hk]
      simp [hlen ▸ h₂]
    have hkey : tt[n].key = n := by simpa [h₂] using hn
    simp [targets, ← hkey]
  · simp [blank, List.map_const', Function.comp_def, hlen]

/-- Nothing was read from a map that was never made, so none is made. -/
theorem store_unmade {tt : List Target} (name : Text)
    (h : tt.map Target.key = (keyed none).targets.map Target.key) :
    ∃ s', (keyed none).store name tt = (s', none) ∧ s'.targets = tt ∧
      s'.blank = (keyed none).blank := by
  have htt : tt = [] := List.map_eq_nil_iff.mp h
  subst htt
  exact ⟨keyed none, rfl, rfl, rfl⟩

/-- A key that was read fits into 64 bits, so it comes back unchanged. -/
theorem toInt_ofInt_key {m : Option (KeyMap (Option BlockRef))} {tt : List Target}
    (h : tt.map Target.key = (keyed m).targets.map Target.key) :
    ∀ t ∈ tt, (Int64.ofInt t.key).toInt = t.key := by
  intro t ht
  have hmem : t.key ∈ (keyed m).targets.map Target.key := h ▸ List.mem_map_of_mem ht
  simp only [targets, List.map_map, List.mem_map, Function.comp_apply] at hmem
  obtain ⟨e, -, he⟩ := hmem
  rw [← he, Int64.ofInt_toInt]

theorem store_keyed {m : KeyMap (Option BlockRef)} {tt : List Target} (name : Text)
    (h : tt.map Target.key = (keyed m).targets.map Target.key) :
    ∃ s', (keyed m).store name tt = (s', none) ∧ s'.targets = tt ∧
      s'.blank = (keyed m).blank := by
  let es : List (Int64 × Option BlockRef) := tt.map fun t => (Int64.ofInt t.key, t.block)
  have hk : tt.map Target.key = m.entries.map (fun e => e.1.toInt) := by
    simpa [targets, Function.comp_def] using h
  have hes : m.entries.map (·.1) = es.map (·.1) := by
    have hof := congrArg (List.map Int64.ofInt) hk
    simpa [es, Function.comp_def] using hof.symm
  have hfold : (es.foldl (fun m e => m.insert e.1 e.2) m).entries = es := by
    simpa using KeyMap.foldl_insert_entries es m [] m.entries rfl hes
  refine ⟨keyed (some (es.foldl (fun m e => m.insert e.1 e.2) m)), ?_, ?_, ?_⟩
  · simp [store, storeKeyed, es, List.foldl_map]
  · simp only [targets, Option.getD_some, hfold, es, List.map_map]
    calc tt.map _ = tt.map id := List.map_congr_left fun t ht => by
          simp [toInt_ofInt_key h t ht]
      _ = tt := List.map_id tt
  · have hblank : ∀ l : List (Int64 × Option BlockRef),
        l.map (fun e => (e.1, (none : Option BlockRef))) = (l.map (·.1)).map (·, none) := by
      simp [Function.comp_def]
    simp only [blank, Option.map_some, keyed.injEq, Option.some.injEq]
    apply KeyMap.ext
    simp only [KeyMap.map, hfold, hblank, hes]

/-- References with the keys that were read are written as they are. -/
theorem store_of_keys {s : Slot} {tt : List Target} (name : Text)
    (h : tt.map Target.key = s.targets.map Target.key) :
    ∃ s', s.store name tt = (s', none) ∧ s'.targets = tt ∧ s'.blank = s.blank := by
  cases s with
  | single b => exact store_single name h
  | list bs => exact store_list name h
  | keyed m =>
    cases m with
    | none => exact store_unmade name h
    | some m => exact store_keyed name h

/-- The keys do not depend on the references. -/
theorem keys_blank (s : Slot) : s.blank.targets.map Target.key = s.targets.map Target.key := by
  cases s with
  | single b => rfl
  | list bs =>
    simp only [blank, targets, List.zipIdx_map, List.map_map]
    rfl
  | keyed m =>
    cases m with
    | none => rfl
    | some m =>
      simp only [blank, targets, Option.map_some, Option.getD_some, KeyMap.map, List.map_map]
      rfl

/-- The references and the shape make up the slot. -/
theorem eq_of_targets {s s' : Slot} (hb : s'.blank = s.blank) (ht : s'.targets = s.targets) :
    s' = s := by
  cases s with
  | single b =>
    cases s' <;> simp_all [blank, targets]
  | list bs =>
    cases s' with
    | list bs' =>
      have hblocks := congrArg (List.map Target.block) ht
      simpa [targets, Function.comp_def] using hblocks
    | _ => simp [blank] at hb
  | keyed m =>
    cases s' with
    | keyed m' =>
      -- distinct keys read as distinct integers
      have hentries : (m'.getD .empty).entries = (m.getD .empty).entries := by
        refine (List.map_inj_right fun e e' h => ?_).mp ht
        simp only [Target.mk.injEq, Int64.toInt_inj] at h
        exact Prod.ext h.1 h.2
      have hmaps := KeyMap.ext hentries
      cases m <;> cases m' <;> simp_all [blank]
    | _ => simp [blank] at hb

/-- References are written back as they were read. -/
theorem store_targets (name : Text) (s : Slot) : s.store name s.targets = (s, none) := by
  obtain ⟨s', hstore, ht, hb⟩ := store_of_keys name (s := s) rfl
  rw [hstore, eq_of_targets hb ht]

/-! Under any keys, what is read afterwards was there before or was written. -/

theorem mem_storeList {c : Option BlockRef} (tt : List Target) : ∀ bs : List (Option BlockRef),
    c ∈ (storeList bs tt).1 → c ∈ bs ∨ ∃ x ∈ tt, x.block = c := by
  induction tt with
  | nil => intro bs h; exact .inl h
  | cons t tt ih =>
    intro bs h
    unfold storeList at h
    split at h
    · rcases ih _ h with h | ⟨x, hx, hc⟩
      · rcases List.mem_or_eq_of_mem_set h with h | rfl
        · exact .inl h
        · exact .inr ⟨t, by simp, rfl⟩
      · exact .inr ⟨x, by simp [hx], hc⟩
    · exact .inl h

theorem storeKeyed_of_ne_nil {tt : List Target} (h : tt ≠ [])
    (m : Option (KeyMap (Option BlockRef))) : storeKeyed m tt =
      some (tt.foldl (fun m t => m.insert (Int64.ofInt t.key) t.block) (m.getD .empty)) := by
  cases m <;> simp [storeKeyed, h]

@[simp] theorem storeKeyed_nil (m : Option (KeyMap (Option BlockRef))) : storeKeyed m [] = m := by
  cases m <;> rfl

theorem mem_storeKeyed {e : Int64 × Option BlockRef} {tt : List Target}
    {m : Option (KeyMap (Option BlockRef))} (h : e ∈ ((storeKeyed m tt).getD .empty).entries) :
    e ∈ (m.getD .empty).entries ∨ ∃ x ∈ tt, x.block = e.2 := by
  by_cases htt : tt = []
  · subst htt
    rw [storeKeyed_nil] at h
    exact .inl h
  · let es : List (Int64 × Option BlockRef) := tt.map fun t => (Int64.ofInt t.key, t.block)
    have hes : e ∈ (es.foldl (fun m e => m.insert e.1 e.2) (m.getD .empty)).entries := by
      simpa [es, storeKeyed_of_ne_nil htt, List.foldl_map] using h
    rcases KeyMap.mem_foldl_insert es _ hes with he | he
    · exact .inl he
    · obtain ⟨x, hx, rfl⟩ := List.mem_map.mp he
      exact .inr ⟨x, hx, rfl⟩

theorem mem_blocks_store {name : Text} {tt : List Target} {s : Slot} {c : Option BlockRef}
    (h : ∃ x ∈ (s.store name tt).1.targets, x.block = c) :
    ∃ x, (x ∈ s.targets ∨ x ∈ tt) ∧ x.block = c := by
  obtain ⟨x, hx, rfl⟩ := h
  cases s with
  | single b =>
    simp only [store] at hx
    split at hx
    · rename_i t
      simp only [targets, List.mem_singleton] at hx
      exact ⟨t, by simp, by rw [hx]⟩
    · exact ⟨x, .inl hx, rfl⟩
  | list bs =>
    simp only [store, targets, List.mem_map, Prod.exists] at hx
    obtain ⟨b, i, hi, rfl⟩ := hx
    rcases mem_storeList tt bs (List.fst_mem_of_mem_zipIdx hi) with hb | ⟨y, hy, hb⟩
    · obtain ⟨j, hj⟩ := List.mem_iff_getElem?.mp hb
      refine ⟨⟨j, b⟩, .inl ?_, rfl⟩
      simp only [targets, List.mem_map, Prod.exists]
      exact ⟨b, j, List.mem_zipIdx_iff_getElem?.mpr (by simpa using hj), rfl⟩
    · exact ⟨y, .inr hy, hb⟩
  | keyed m =>
    simp only [store, targets, List.mem_map] at hx
    obtain ⟨e, he, rfl⟩ := hx
    rcases mem_storeKeyed he with he | ⟨y, hy, hb⟩
    · exact ⟨_, .inl (List.mem_map_of_mem he), rfl⟩
    · exact ⟨y, .inr hy, hb⟩

end Slot

namespace Op

/-- The operation without its references. -/
def blank : Op → Op
  | jump _ => jump none
  | branch c _ _ => branch c none none
  | switch c m _ => switch c (m.map (·.map fun _ => none)) none
  | region _ hs _ => region none (hs.map fun _ => none) none
  | expr n r as => expr n r as
  | ret v => ret v
  | foreign k t as => foreign k t (as.map fun a => { a with slot := a.slot.blank })

/-- The reference at place `j` of attribute `i`. -/
def slot? (op : Op) (i j : Nat) : Option Target :=
  op.attributes[i]?.bind fun a => a.slot.targets[j]?

theorem isJump_of_blank {op op' : Op} (h : op'.blank = op.blank) : op'.isJump = op.isJump := by
  cases op <;> cases op' <;> simp_all [blank, isJump]

theorem attributes_blank (op : Op) :
    op.blank.attributes = op.attributes.map fun a => { a with slot := a.slot.blank } := by
  cases op <;> rfl

/-- Operations of one shape have the same attributes up to the references. -/
theorem attribute_of_blank {op op' : Op} {i : Nat} {a : Attribute} (h : op'.blank = op.blank)
    (ha : op.attributes[i]? = some a) : ∃ a', op'.attributes[i]? = some a' ∧
      a'.name = a.name ∧ a'.slot.blank = a.slot.blank := by
  have hi : op'.blank.attributes[i]? = op.blank.attributes[i]? := by rw [h]
  rw [attributes_blank, attributes_blank, List.getElem?_map, List.getElem?_map, ha] at hi
  obtain ⟨a', ha', heq⟩ := Option.map_eq_some_iff.mp hi
  exact ⟨a', ha', (Attribute.mk.inj heq).1, (Attribute.mk.inj heq).2⟩

theorem keys_of_blank {op op' : Op} {i : Nat} {a : Attribute} (h : op'.blank = op.blank)
    (ha : op.attributes[i]? = some a) : ∃ a', op'.attributes[i]? = some a' ∧
      a'.slot.targets.map Target.key = a.slot.targets.map Target.key := by
  obtain ⟨a', ha', -, hslot⟩ := attribute_of_blank h ha
  refine ⟨a', ha', ?_⟩
  rw [← Slot.keys_blank, hslot, Slot.keys_blank]

theorem attributes_of_isJump {op : Op} {i : Nat} {a : Attribute} (h : op.isJump = true)
    (ha : op.attributes[i]? = some a) : i = 0 ∧ a.slot.targets.length ≤ 1 := by
  cases op with
  | jump t =>
    obtain _ | i := i
    · cases ha
      exact ⟨rfl, Nat.le_refl 1⟩
    · simp [attributes] at ha
  | _ => cases h

theorem mem_targets_iff {op : Op} {t : Target} :
    t ∈ op.targets ↔ ∃ i j, op.slot? i j = some t := by
  simp only [targets, List.mem_flatMap, slot?]
  constructor
  · rintro ⟨a, ha, ht⟩
    obtain ⟨i, hi⟩ := List.mem_iff_getElem?.mp ha
    obtain ⟨j, hj⟩ := List.mem_iff_getElem?.mp ht
    exact ⟨i, j, by simp [hi, hj]⟩
  · rintro ⟨i, j, h⟩
    obtain ⟨a, ha, hj⟩ := Option.bind_eq_some_iff.mp h
    exact ⟨a, List.mem_of_getElem? ha, List.mem_of_getElem? hj⟩

theorem mem_blocks_iff {op : Op} {b : BlockRef} :
    b ∈ op.blocks ↔ ∃ i j k, op.slot? i j = some ⟨k, some b⟩ := by
  simp only [blocks, List.mem_filterMap, mem_targets_iff]
  constructor
  · rintro ⟨⟨k, t⟩, ⟨i, j, h⟩, rfl⟩
    exact ⟨i, j, k, h⟩
  · rintro ⟨i, j, k, h⟩
    exact ⟨_, ⟨i, j, h⟩, rfl⟩

/-- A slot of the same shape takes the place of an attribute's slot. -/
theorem setSlot_attributes {op : Op} {i : Nat} {a : Attribute} {s : Slot}
    (ha : op.attributes[i]? = some a) (hs : s.blank = a.slot.blank) :
    (op.setSlot i s).attributes = op.attributes.set i { a with slot := s } ∧
      (op.setSlot i s).blank = op.blank := by
  cases op with
  | jump t =>
    obtain _ | i := i <;> simp [attributes] at ha
    subst ha
    cases s <;> simp_all [Slot.blank, setSlot, attributes, blank]
  | branch c t f =>
    obtain _ | _ | i := i <;> simp [attributes] at ha <;> subst ha <;>
      cases s <;> simp_all [Slot.blank, setSlot, attributes, blank]
  | switch c m d =>
    obtain _ | _ | i := i <;> simp [attributes] at ha <;> subst ha <;>
      cases s <;> simp_all [Slot.blank, setSlot, attributes, blank]
  | region b hs' l =>
    obtain _ | _ | _ | i := i <;> simp [attributes] at ha <;> subst ha <;>
      cases s <;> simp_all [Slot.blank, setSlot, attributes, blank]
  | expr n r as => simp [attributes] at ha
  | ret v => simp [attributes] at ha
  | foreign k t as =>
    simp only [attributes] at ha
    obtain ⟨hlt, rfl⟩ := List.getElem?_eq_some_iff.mp ha
    have hset : (as.modify i fun a => { a with slot := s }) =
        as.set i { as[i] with slot := s } := by
      apply List.ext_getElem?
      intro n
      rw [List.getElem?_modify, List.getElem?_set]
      by_cases hn : i = n
      · subst hn; simp [hlt]
      · simp [hn]
    refine ⟨hset, ?_⟩
    simp only [setSlot, hset, blank, foreign.injEq, true_and, List.map_set]
    apply List.ext_getElem?
    intro n
    rw [List.getElem?_set]
    by_cases hn : i = n
    · subst hn; simpa [hlt] using hs
    · simp [hn]

/-- Writing back into attribute `i` what has the keys of the attribute. -/
theorem store_attributes {op : Op} {i : Nat} {a : Attribute} {tt : List Target}
    (ha : op.attributes[i]? = some a) (hk : tt.map Target.key = a.slot.targets.map Target.key) :
    ∃ op' s, op.store i tt = (op', none) ∧ op'.blank = op.blank ∧ s.targets = tt ∧
      op'.attributes = op.attributes.set i { a with slot := s } := by
  obtain ⟨s, hstore, ht, hb⟩ := Slot.store_of_keys a.name hk
  obtain ⟨hattr, hblank⟩ := setSlot_attributes ha hb
  exact ⟨op.setSlot i s, s, by simp [store, ha, hstore], hblank, ht, hattr⟩

theorem store_of_keys {op : Op} {i : Nat} {a : Attribute} {tt : List Target}
    (ha : op.attributes[i]? = some a) (hk : tt.map Target.key = a.slot.targets.map Target.key) :
    ∃ op', op.store i tt = (op', none) ∧ op'.blank = op.blank ∧
      ∀ i' j, op'.slot? i' j = if i' = i then tt[j]? else op.slot? i' j := by
  obtain ⟨op', s, hstore, hblank, ht, hattr⟩ := store_attributes ha hk
  refine ⟨op', hstore, hblank, ?_⟩
  intro i' j
  have hlt := (List.getElem?_eq_some_iff.mp ha).1
  by_cases h : i' = i
  · subst h
    simp [slot?, hattr, hlt, ht]
  · simp [slot?, hattr, h, Ne.symm h]

theorem setSlot_slot {op : Op} {i : Nat} {a : Attribute} (ha : op.attributes[i]? = some a) :
    op.setSlot i a.slot = op := by
  cases op with
  | jump t =>
    obtain _ | i := i <;> simp [attributes] at ha
    subst ha
    rfl
  | branch c t f =>
    obtain _ | _ | i := i <;> simp [attributes] at ha <;> subst ha <;> rfl
  | switch c m d =>
    obtain _ | _ | i := i <;> simp [attributes] at ha <;> subst ha <;> rfl
  | region b hs l =>
    obtain _ | _ | _ | i := i <;> simp [attributes] at ha <;> subst ha <;> rfl
  | expr n r as => simp [attributes] at ha
  | ret v => simp [attributes] at ha
  | foreign k t as =>
    simp only [attributes] at ha
    simp only [setSlot, foreign.injEq, true_and]
    apply List.ext_getElem?
    intro n
    rw [List.getElem?_modify]
    by_cases hn : i = n
    · subst hn; simp [ha]
    · simp [hn]

theorem store_targets {op : Op} {i : Nat} {a : Attribute} (ha : op.attributes[i]? = some a) :
    op.store i a.slot.targets = (op, none) := by
  simp [store, ha, Slot.store_targets, setSlot_slot ha]

theorem isJump_setSlot (op : Op) (i : Nat) (s : Slot) : (op.setSlot i s).isJump = op.isJump := by
  unfold setSlot
  split <;> rfl

theorem isJump_store (op : Op) (i : Nat) (tt : List Target) :
    (op.store i tt).1.isJump = op.isJump := by
  unfold store
  split
  · rfl
  · exact isJump_setSlot op i _

theorem mem_attributes_setSlot {op : Op} {i : Nat} {s : Slot} {a : Attribute} (h : a ∈ (op.setSlot i s).attributes) :
    a ∈ op.attributes ∨ a.slot = s := by
  unfold setSlot at h
  split at h
  case h_9 k t as i s =>
    obtain ⟨j, hj⟩ := List.mem_iff_getElem?.mp h
    rw [attributes, List.getElem?_modify] at hj
    obtain ⟨a', ha', rfl⟩ := Option.map_eq_some_iff.mp hj
    split
    · exact .inr rfl
    · exact .inl (List.mem_of_getElem? ha')
  case h_10 => exact .inl h
  all_goals
    simp only [attributes, List.mem_cons, List.not_mem_nil, or_false] at h ⊢
    grind

/-- What an operation refers to after a store, it referred to before or was given. -/
theorem mem_blocks_store {op : Op} {i : Nat} {tt : List Target} {b : BlockRef} (h : b ∈ (op.store i tt).1.blocks) :
    b ∈ op.blocks ∨ ∃ x ∈ tt, x.block = some b := by
  unfold store at h
  split at h
  · exact .inl h
  · rename_i a ha
    simp only [blocks, targets, List.mem_filterMap, List.mem_flatMap] at h ⊢
    obtain ⟨x, ⟨a', ha', hx⟩, hb⟩ := h
    rcases mem_attributes_setSlot ha' with ha' | hslot
    · exact .inl ⟨x, ⟨a', ha', hx⟩, hb⟩
    · rw [hslot] at hx
      obtain ⟨y, hy | hy, hyb⟩ := Slot.mem_blocks_store ⟨x, hx, hb⟩
      · exact .inl ⟨y, ⟨a, List.mem_of_getElem? ha, hy⟩, hyb⟩
      · exact .inr ⟨y, hy, hyb⟩

end Op

end FlowGraph
