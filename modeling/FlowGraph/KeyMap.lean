/-! Finite maps from 64-bit keys, kept in rising order of the keys. The order is part of the
type, so two maps with the same entries are equal and reading them out needs no sort. -/

namespace FlowGraph

structure KeyMap (α : Type) where
  entries : List (Int64 × α)
  sorted : entries.Pairwise (fun a b => a.1 < b.1)
deriving DecidableEq, Repr

namespace KeyMap

variable {α β : Type}

def empty : KeyMap α := ⟨[], .nil⟩

instance : Inhabited (KeyMap α) := ⟨empty⟩

/-- Puts an entry at its place, over an earlier one with the same key. -/
def insertEntry (k : Int64) (v : α) : List (Int64 × α) → List (Int64 × α)
  | [] => [(k, v)]
  | e :: rest =>
    if k < e.1 then (k, v) :: e :: rest
    else if k = e.1 then (k, v) :: rest
    else e :: insertEntry k v rest

theorem mem_insertEntry {k : Int64} {v : α} {e : Int64 × α} {l : List (Int64 × α)}
    (h : e ∈ insertEntry k v l) : e = (k, v) ∨ e ∈ l := by
  induction l with
  | nil => simpa [insertEntry] using h
  | cons x rest ih =>
    simp only [insertEntry] at h
    split at h
    · simpa using h
    · split at h
      · rcases List.mem_cons.mp h with h | h
        · exact .inl h
        · exact .inr (List.mem_cons_of_mem _ h)
      · rcases List.mem_cons.mp h with h | h
        · exact .inr (h ▸ List.mem_cons_self)
        · exact (ih h).imp id (List.mem_cons_of_mem _)

theorem pairwise_insertEntry {k : Int64} {v : α} {l : List (Int64 × α)}
    (h : l.Pairwise (fun a b => a.1 < b.1)) :
    (insertEntry k v l).Pairwise (fun a b => a.1 < b.1) := by
  induction l with
  | nil => simp [insertEntry]
  | cons x rest ih =>
    obtain ⟨hx, hrest⟩ := List.pairwise_cons.mp h
    simp only [insertEntry]
    split
    · rename_i hlt
      refine List.pairwise_cons.mpr ⟨fun e he => ?_, h⟩
      rcases List.mem_cons.mp he with rfl | he
      · exact hlt
      · exact Int64.lt_trans hlt (hx e he)
    · split
      · rename_i heq
        exact List.pairwise_cons.mpr ⟨fun e he => heq ▸ hx e he, hrest⟩
      · rename_i hlt hne
        refine List.pairwise_cons.mpr ⟨fun e he => ?_, ih hrest⟩
        rcases mem_insertEntry he with rfl | he
        · have hne' : k.toInt ≠ x.1.toInt := fun e => hne (Int64.toInt_inj.mp e)
          simp only [Int64.lt_iff_toInt_lt] at hlt ⊢
          omega
        · exact hx e he

def insert (m : KeyMap α) (k : Int64) (v : α) : KeyMap α :=
  ⟨insertEntry k v m.entries, pairwise_insertEntry m.sorted⟩

def ofList (l : List (Int64 × α)) : KeyMap α := l.foldl (fun m e => m.insert e.1 e.2) empty

def get? (m : KeyMap α) (k : Int64) : Option α := (m.entries.find? (·.1 = k)).map (·.2)

def isEmpty (m : KeyMap α) : Bool := m.entries.isEmpty

/-- The map, or none where there is nothing to keep in one. -/
def made? (m : KeyMap α) : Option (KeyMap α) := if m.isEmpty then none else some m

def size (m : KeyMap α) : Nat := m.entries.length

def keys (m : KeyMap α) : List Int64 := m.entries.map (·.1)

/-- Changes the values and keeps the keys. -/
def map (f : α → β) (m : KeyMap α) : KeyMap β :=
  ⟨m.entries.map fun e => (e.1, f e.2), List.pairwise_map.mpr m.sorted⟩

end KeyMap

end FlowGraph
