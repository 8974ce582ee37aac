import Mathlib
import FlowGraph.Proofs.Slots
import FlowGraph.Snapshot.Wire

/-! Reading back what was written on the wire. A reader that takes exactly the bytes of a value
from the front leaves alone whatever follows them, so values that were written one after the other
are read one after the other. Lengths are read back as long as they fit into four bytes. -/

namespace FlowGraph

namespace KeyMap

variable {α : Type}

theorem perm_insertEntry {k : Int64} {v : α} {l : List (Int64 × α)} (h : ∀ e ∈ l, e.1 ≠ k) :
    (insertEntry k v l).Perm ((k, v) :: l) := by
  induction l with
  | nil => exact .refl _
  | cons x l ih =>
    have hx : k ≠ x.1 := (h x List.mem_cons_self).symm
    rw [insertEntry, if_neg hx]
    split
    · exact .refl _
    · exact (List.Perm.cons x (ih fun e he => h e (List.mem_cons_of_mem x he))).trans (.swap ..)

/-- Entries under new keys are added to those that are there. -/
theorem perm_foldl_insert (es : List (Int64 × α)) : ∀ m : KeyMap α,
    ((m.entries ++ es).map (·.1)).Nodup →
      (es.foldl (fun m e => m.insert e.1 e.2) m).entries.Perm (m.entries ++ es) := by
  induction es with
  | nil => intro m _; simp
  | cons e es ih =>
    intro m hkeys
    have hnew : ∀ x ∈ m.entries, x.1 ≠ e.1 := by
      rw [List.map_append, List.nodup_append] at hkeys
      exact fun x hx => hkeys.2.2 x.1 (List.mem_map_of_mem hx) e.1 (by simp)
    have hins : (m.insert e.1 e.2).entries.Perm (e :: m.entries) := perm_insertEntry hnew
    have hmid : ((m.insert e.1 e.2).entries ++ es).Perm (m.entries ++ e :: es) :=
      (hins.append_right es).trans List.perm_middle.symm
    exact (ih _ ((hmid.map _).nodup_iff.mpr hkeys)).trans hmid

/-- The entries of a map give the map, in whatever order they are put in. -/
theorem foldl_insert_of_perm {m : KeyMap α} {es : List (Int64 × α)} (h : es.Perm m.entries) :
    es.foldl (fun m e => m.insert e.1 e.2) empty = m := by
  have hkeys : (es.map (·.1)).Nodup := (h.map _).nodup_iff.mpr m.nodup_keys
  exact eq_of_perm ((perm_foldl_insert es empty hkeys).trans h)

end KeyMap

namespace Wire

variable {α β : Type} {t u : Text} {a : α} {b : β}

/-- Lengths below this one fit into four bytes. -/
def limit : Nat := 1 <<< 32

/-- The reader takes the bytes `t` from the front, whatever follows them, and gives `a`. -/
def Reads (r : Reader α) (t : Text) (a : α) : Prop := ∀ rest, r.run (t ++ rest) = some (a, rest)

namespace Reads

protected theorem pure (a : α) : Reads (pure a) [] a := fun _ => rfl

protected theorem bind {r : Reader α} {f : α → Reader β} (h : Reads r t a) (h' : Reads (f a) u b) :
    Reads (r >>= f) (t ++ u) b := by
  intro rest
  rw [StateT.run_bind, List.append_assoc, h]
  exact h' rest

/-- A value that is computed from what was read. -/
protected theorem map {r : Reader α} (h : Reads r t a) (f : α → β) :
    Reads (r >>= fun x => pure (f x)) t (f a) := by
  have hbind := Reads.bind (f := fun x => pure (f x)) h (.pure (f a))
  rwa [List.append_nil] at hbind

theorem byte_bind {head : UInt8} {f : UInt8 → Reader α} (h : Reads (f head) t a) :
    Reads (Reader.byte >>= f) (head :: t) a :=
  Reads.bind (t := [head]) (fun _ => rfl) h

theorem bytes (t : Text) : Reads (Reader.bytes t.length) t t := by
  intro rest
  show (if t.length ≤ (t ++ rest).length then
    some ((t ++ rest).take t.length, (t ++ rest).drop t.length) else none) = _
  rw [if_pos (by simp), List.take_left, List.drop_left]

end Reads

/-! ## Numbers -/

theorem length_bigEndian (n width : Nat) : (bigEndian n width).length = width := by
  induction width with
  | zero => rfl
  | succ w ih => simp [bigEndian, ih]

theorem foldl_bigEndian (n width : Nat) : ∀ start,
    (bigEndian n width).foldl (fun n b => n * 256 + b.toNat) start =
      start * 256 ^ width + n % 256 ^ width := by
  induction width with
  | zero => intro start; simp [bigEndian, Nat.mod_one]
  | succ w ih =>
    intro start
    have hbyte : ((n >>> (8 * w)) % 256).toUInt8.toNat = n / 256 ^ w % 256 := by
      rw [Nat.shiftRight_eq_div_pow, Nat.pow_mul]
      simp
    rw [bigEndian, List.foldl_cons, ih, hbyte, Nat.mod_pow_succ, Nat.pow_succ]
    grind

theorem reads_number {n width : Nat} (h : n < 256 ^ width) :
    Reads (Reader.number width) (bigEndian n width) n := by
  have hbytes := Reads.bytes (bigEndian n width)
  rw [length_bigEndian] at hbytes
  have hmap := hbytes.map fun t => t.foldl (fun n b => n * 256 + b.toNat) 0
  rw [foldl_bigEndian, Nat.mod_eq_of_lt h, Nat.zero_mul, Nat.zero_add] at hmap
  exact hmap

/-- Keys of both signs come back as they were. -/
theorem reads_int64 (k : Int64) : Reads Reader.int64 (int64 k) k := by
  have hnumber : Reads (Reader.number 8) (bigEndian k.toUInt64.toNat 8) k.toUInt64.toNat :=
    reads_number k.toUInt64.toNat_lt
  have hback : Int64.ofNat k.toUInt64.toNat = k := by
    apply Int64.toBitVec_inj.mp
    simp
  have hmap := hnumber.map Int64.ofNat
  rw [hback] at hmap
  exact .byte_bind hmap

/-! ## Lengths -/

/-- The head of a small value lies between `base` and `top` and holds the length. -/
theorem small_head (base top : UInt8) (low : Nat) {n : Nat} (hbase : base.toNat = low)
    (h : low + n ≤ top.toNat) : (base ≤ base + n.toUInt8 ∧ base + n.toUInt8 ≤ top) ∧
      (base + n.toUInt8).toNat - low = n := by
  have htop := top.toNat_lt
  have hhead : (base + n.toUInt8).toNat = low + n := by
    rw [UInt8.toNat_add, Nat.toUInt8_eq, UInt8.toNat_ofNat']
    omega
  rw [UInt8.le_iff_toNat_le, UInt8.le_iff_toNat_le, hhead]
  omega

theorem ne_missing {head top : UInt8} (h : head ≤ top) (htop : top < Reader.missing) :
    head ≠ Reader.missing := by
  rw [UInt8.le_iff_toNat_le] at h
  rw [UInt8.lt_iff_toNat_lt] at htop
  rw [Ne, ← UInt8.toNat_inj]
  omega

/-- A text is written behind a head byte, which is never missing, and its length. -/
theorem text_eq (h : t.length < limit) : ∃ head tail, text t = head :: (tail ++ t) ∧
    head ≠ Reader.missing ∧ Reads (Reader.textLength head) tail t.length := by
  simp only [text]
  split
  · rename_i hn
    obtain ⟨hrange, hlength⟩ := small_head 0xA0 0xBF 0xA0 rfl
      (show 160 + t.length ≤ 191 by omega)
    refine ⟨0xA0 + t.length.toUInt8, [], rfl, ne_missing hrange.2 (by decide), ?_⟩
    rw [Reader.textLength, if_pos hrange, hlength]
    exact .pure t.length
  · split
    · rename_i hn
      exact ⟨_, _, rfl, by decide, reads_number hn⟩
    · split
      · rename_i hn
        exact ⟨_, _, rfl, by decide, reads_number hn⟩
      · exact ⟨_, _, rfl, by decide, reads_number h⟩

theorem reads_text (h : t.length < limit) : Reads Reader.text (text t) t := by
  obtain ⟨head, tail, heq, hne, hlength⟩ := text_eq h
  rw [heq]
  refine .byte_bind ?_
  rw [if_neg hne]
  exact hlength.bind (.bytes t)

theorem arrayHead_eq {n : Nat} (h : n < limit) : ∃ head tail, arrayHead n = head :: tail ∧
    head ≠ Reader.missing ∧ Reads (Reader.arrayLength head) tail n := by
  unfold arrayHead
  split
  · obtain ⟨hrange, hlength⟩ := small_head 0x90 0x9F 0x90 rfl
      (show 144 + n ≤ 159 by omega)
    refine ⟨0x90 + n.toUInt8, [], rfl, ne_missing hrange.2 (by decide), ?_⟩
    rw [Reader.arrayLength, if_pos hrange, hlength]
    exact .pure n
  · split
    · rename_i hn
      exact ⟨_, _, rfl, by decide, reads_number hn⟩
    · exact ⟨_, _, rfl, by decide, reads_number h⟩

theorem mapHead_eq {n : Nat} (h : n < limit) : ∃ head tail, mapHead n = head :: tail ∧
    Reader.isMap head = true ∧ Reads (Reader.mapLength head) tail n := by
  unfold mapHead
  split
  · obtain ⟨hrange, hlength⟩ := small_head 0x80 0x8F 0x80 rfl
      (show 128 + n ≤ 143 by omega)
    refine ⟨0x80 + n.toUInt8, [], rfl, by simp [Reader.isMap, hrange], ?_⟩
    rw [Reader.mapLength, if_pos hrange, hlength]
    exact .pure n
  · split
    · rename_i hn
      exact ⟨_, _, rfl, by decide, reads_number hn⟩
    · exact ⟨_, _, rfl, by decide, reads_number h⟩

/-- The head of a map is neither missing nor the head of an extension. -/
theorem isMap_head {head : UInt8} (h : Reader.isMap head = true) : head ≠ Reader.missing ∧
    ¬((0xD4 : UInt8) ≤ head ∧ head ≤ 0xD8) ∧ Reader.extensionWidth? head = none := by
  unfold Reader.isMap at h
  unfold Reader.missing Reader.extensionWidth?
  grind

/-! ## Lists and maps -/

/-- Items that are read into new ones. -/
theorem reads_items {zero : α} {item : α → Reader α} {xs : List α} {us : List Text}
    (h : List.Forall₂ (fun x u => Reads (item zero) u x) xs us) :
    Reads (Reader.items zero item us.length []) us.flatten xs := by
  induction h with
  | nil => exact .pure []
  | cons hx _ ih => exact hx.bind (ih.map _)

/-- An array whose items are spelled as `w` says and read as what `g` makes of them. The reader
`f` is free to treat a missing array as it likes. -/
theorem reads_array {w : α → Text → Prop} {P : α → Prop} {g : α → α} {zero : α}
    {item : α → Reader α} {f : UInt8 → Reader (List α)} {xs : List α} {us : List Text}
    (hitem : ∀ x, P x → ∀ u, w x u → Reads (item zero) u (g x))
    (hf : ∀ head, head ≠ Reader.missing →
      f head = do Reader.items zero item (← Reader.arrayLength head) [])
    (hlen : xs.length < limit) (hxs : ∀ x ∈ xs, P x) (hus : List.Forall₂ w xs us) :
    Reads (Reader.byte >>= f) (array us) (xs.map g) := by
  have hreads : List.Forall₂ (fun x u => Reads (item zero) u (g x)) xs us :=
    (List.forall₂_and_left xs us |>.mpr ⟨hxs, hus⟩).imp fun x u hxu => hitem x hxu.1 u hxu.2
  obtain ⟨head, tail, heq, hne, hlength⟩ := arrayHead_eq (n := us.length) (hus.length_eq ▸ hlen)
  rw [array, heq]
  refine .byte_bind ?_
  rw [hf head hne]
  exact hlength.bind (reads_items (List.forall₂_map_left_iff.mpr hreads))

theorem reads_caseEntries (es : List (Int64 × Text)) : ∀ m : KeyMap Text,
    (∀ e ∈ es, e.2.length < limit) →
      Reads (Reader.caseEntries es.length m) (es.flatMap fun e => int64 e.1 ++ text e.2)
        (es.foldl (fun m e => m.insert e.1 e.2) m) := by
  induction es with
  | nil => intro m _; exact .pure m
  | cons e es ih =>
    intro m hes
    have htext := reads_text (hes e List.mem_cons_self)
    have hrest := ih (m.insert e.1 e.2) fun x hx => hes x (List.mem_cons_of_mem e hx)
    rw [List.flatMap_cons, List.append_assoc]
    exact (reads_int64 e.1).bind (htext.bind hrest)

/-- The cases of a switch come back from any order. -/
theorem reads_cases {m : KeyMap Text} {es : List (Int64 × Text)} (hes : es.Perm m.entries)
    (hlen : m.size < limit) (htexts : ∀ e ∈ m.entries, e.2.length < limit) :
    Reads (Reader.cases .empty)
      (mapHead es.length ++ es.flatMap fun e => int64 e.1 ++ text e.2) m := by
  obtain ⟨head, tail, heq, hmap, hlength⟩ := mapHead_eq (n := es.length) (hes.length_eq ▸ hlen)
  obtain ⟨hne, hext, hwidth⟩ := isMap_head hmap
  have hentries := reads_caseEntries es .empty fun e he => htexts e (hes.mem_iff.mp he)
  rw [KeyMap.foldl_insert_of_perm hes] at hentries
  have hhead : Reads Reader.casesHead [head] head := by
    refine .byte_bind ?_
    rw [if_neg hext, hwidth]
    exact .pure head
  rw [heq]
  refine hhead.bind ?_
  rw [if_neg hne]
  exact hlength.bind hentries

end Wire

end FlowGraph
