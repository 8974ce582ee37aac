import Mathlib
import FlowGraph.Proofs.Wire
import FlowGraph.Snapshot

/-! Snapshots lose nothing but lines. The format leaves some freedom to a writer: an empty list may
be written as a missing one, and the cases of a switch come in any order. `Spelling.document` says
which bytes stand for a document, apart from the tables of fields that writing and reading share.
What is written is one of its spellings, and every spelling is read back as the document. -/

namespace FlowGraph

/-! ## Documents that fit, and documents without lines -/

def Text.Fits (t : Text) : Prop := t.length < Wire.limit

instance : DecidablePred Text.Fits := fun _ => inferInstanceAs (Decidable (_ < _))

/-- A list that is short enough to be written, of items that are. -/
def FitsList {α : Type} (P : α → Prop) (xs : List α) : Prop :=
  xs.length < Wire.limit ∧ ∀ x ∈ xs, P x

instance {α : Type} {P : α → Prop} [DecidablePred P] : DecidablePred (FitsList P) :=
  fun _ => inferInstanceAs (Decidable (_ ∧ _))

namespace PhiDoc

def Fits (p : PhiDoc) : Prop := p.result.Fits ∧ FitsList Text.Fits p.operands

instance : DecidablePred Fits := fun _ => inferInstanceAs (Decidable (_ ∧ _))

def unlined (p : PhiDoc) : PhiDoc := { p with line := 0 }

end PhiDoc

namespace OpDoc

/-- The fields of an operation that hold one text. -/
def texts (o : OpDoc) : List Text :=
  [o.kind, o.name, o.result, o.cond, o.value, o.target, o.onTrue, o.onFalse, o.default, o.body,
    o.last]

def Fits (o : OpDoc) : Prop := (∀ t ∈ o.texts, t.Fits) ∧ FitsList Text.Fits o.args ∧
  FitsList (fun e => e.2.Fits) o.cases.entries ∧ FitsList Text.Fits o.handlers

instance : DecidablePred Fits := fun _ => inferInstanceAs (Decidable (_ ∧ _ ∧ _ ∧ _))

def unlined (o : OpDoc) : OpDoc := { o with line := 0 }

end OpDoc

namespace BlockDoc

def Fits (b : BlockDoc) : Prop :=
  b.label.Fits ∧ FitsList PhiDoc.Fits b.phis ∧ FitsList OpDoc.Fits b.ops

instance : DecidablePred Fits := fun _ => inferInstanceAs (Decidable (_ ∧ _ ∧ _))

def unlined (b : BlockDoc) : BlockDoc where
  label := b.label
  phis := b.phis.map PhiDoc.unlined
  ops := b.ops.map OpDoc.unlined

end BlockDoc

namespace FuncDoc

def Fits (f : FuncDoc) : Prop := f.name.Fits ∧ f.entry.Fits ∧ FitsList BlockDoc.Fits f.blocks

instance : DecidablePred Fits := fun _ => inferInstanceAs (Decidable (_ ∧ _ ∧ _))

def unlined (f : FuncDoc) : FuncDoc where
  name := f.name
  entry := f.entry
  blocks := f.blocks.map BlockDoc.unlined

end FuncDoc

namespace Document

def Fits (d : Document) : Prop := FitsList FuncDoc.Fits d.functions

instance : DecidablePred Fits := fun _ => inferInstanceAs (Decidable (FitsList _ _))

def unlined (d : Document) : Document := ⟨d.functions.map FuncDoc.unlined⟩

end Document

namespace Snapshot

open Wire

variable {σ α : Type}

/-! ## The format -/

/-- Which bytes stand for a value. -/
abbrev Spelling (α : Type) := α → Text → Prop

/-- A named part of a record. -/
structure Part (σ : Type) where
  name : Text
  omitted : σ → Bool
  spelling : Spelling σ

namespace Part

def always (name : Text) (get : σ → α) (w : Spelling α) : Part σ :=
  ⟨name, fun _ => false, fun s => w (get s)⟩

/-- A part that is left out when it is empty. -/
def unlessEmpty (name : Text) (get : σ → α) (empty : α → Bool) (w : Spelling α) : Part σ :=
  ⟨name, fun s => empty (get s), fun s => w (get s)⟩

end Part

/-- The bytes of `n` parts that are not left out, each behind its name. -/
inductive Parts (s : σ) : List (Part σ) → (n : Nat) → Text → Prop
  | nil : Parts s [] 0 []
  | omitted {p : Part σ} {ps : List (Part σ)} {n : Nat} {u : Text} : p.omitted s = true →
      Parts s ps n u → Parts s (p :: ps) n u
  | kept {p : Part σ} {ps : List (Part σ)} {n : Nat} {v u : Text} : p.omitted s = false →
      p.spelling s v → Parts s ps n u → Parts s (p :: ps) (n + 1) (Wire.text p.name ++ (v ++ u))

namespace Spelling

def text : Spelling Text := fun t u => u = Wire.text t

/-- An empty list may be missing. -/
def list (item : Spelling α) : Spelling (List α) := fun xs u =>
  (xs = [] ∧ u = [Reader.missing]) ∨ ∃ us, List.Forall₂ item xs us ∧ u = Wire.array us

/-- Cases come in any order. -/
def cases : Spelling (KeyMap Text) := fun m u => ∃ es : List (Int64 × Text), es.Perm m.entries ∧
  u = mapHead es.length ++ es.flatMap fun e => int64 e.1 ++ Wire.text e.2

def record (parts : List (Part σ)) : Spelling σ := fun s u =>
  ∃ n v, Parts s parts n v ∧ u = mapHead n ++ v

def phi : Spelling PhiDoc := record
  [.always "result" (·.result) text, .always "operands" (·.operands) (list text)]

def op : Spelling OpDoc := record
  [.always "kind" (·.kind) text,
   .unlessEmpty "name" (·.name) List.isEmpty text,
   .unlessEmpty "result" (·.result) List.isEmpty text,
   .unlessEmpty "args" (·.args) List.isEmpty (list text),
   .unlessEmpty "cond" (·.cond) List.isEmpty text,
   .unlessEmpty "value" (·.value) List.isEmpty text,
   .unlessEmpty "target" (·.target) List.isEmpty text,
   .unlessEmpty "if" (·.onTrue) List.isEmpty text,
   .unlessEmpty "else" (·.onFalse) List.isEmpty text,
   .unlessEmpty "cases" (·.cases) KeyMap.isEmpty cases,
   .unlessEmpty "default" (·.default) List.isEmpty text,
   .unlessEmpty "body" (·.body) List.isEmpty text,
   .unlessEmpty "catch" (·.handlers) List.isEmpty (list text),
   .unlessEmpty "finally" (·.last) List.isEmpty text]

def block : Spelling BlockDoc := record
  [.always "label" (·.label) text,
   .unlessEmpty "phis" (·.phis) List.isEmpty (list phi),
   .always "ops" (·.ops) (list op)]

def func : Spelling FuncDoc := record
  [.always "name" (·.name) text,
   .unlessEmpty "entry" (·.entry) List.isEmpty text,
   .always "blocks" (·.blocks) (list block)]

def document : Spelling Document := record
  [.always "functions" (·.functions) (list func)]

end Spelling

/-! ## Fields -/

/-- The field of `s` that the part describes is written as the part says, and reading it turns
`acc` into `next`. -/
structure Field.Carries (s : σ) (f : Field σ) (p : Part σ) (acc next : σ) : Prop where
  name : f.name = p.name
  omitted : f.omitted s = p.omitted s
  skipped : p.omitted s = true → next = acc
  written : p.omitted s = false → p.spelling s (f.write s)
  read : p.omitted s = false → ∀ u, p.spelling s u → Reads (f.read acc) u next

namespace Field.Carries

variable {s acc next : σ} {name : Text}

theorem omitWhen {f : Field σ} {get : σ → α} {w : Spelling α} {empty : α → Bool}
    (h : f.Carries s (.always name get w) acc next) (hskip : empty (get s) = true → next = acc) :
    (f.omitWhen fun s => empty (get s)).Carries s (.unlessEmpty name get empty w) acc next where
  name := h.name
  omitted := rfl
  skipped := hskip
  written _ := h.written rfl
  read _ := h.read rfl

theorem text {get : σ → Text} {set : σ → Text → σ} (hfits : (get s).Fits) :
    (Field.text name get set).Carries s (.always name get .text) acc (set acc (get s)) where
  name := rfl
  omitted := rfl
  skipped := nofun
  written _ := rfl
  read _ u hu := by
    subst hu
    exact (reads_text hfits).map (set acc)

theorem text? {get : σ → Text} {set : σ → Text → σ} (hset : set acc [] = acc)
    (hfits : (get s).Fits) : (Field.text? name get set).Carries s
      (.unlessEmpty name get List.isEmpty .text) acc (set acc (get s)) := by
  refine (text hfits).omitWhen fun hempty => ?_
  rw [List.isEmpty_iff.mp hempty, hset]

/-- A list of texts is read into an empty one. -/
theorem texts {get : σ → List Text} {set : σ → List Text → σ} (hget : get acc = [])
    (hfits : FitsList Text.Fits (get s)) : (Field.texts name get set).Carries s
      (.always name get (.list .text)) acc (set acc (get s)) where
  name := rfl
  omitted := rfl
  skipped := nofun
  written _ := .inr ⟨_, List.forall₂_map_right_iff.mpr (List.forall₂_same.mpr fun _ _ => rfl), rfl⟩
  read _ u hu := by
    refine Reads.map ?_ (set acc)
    rw [hget]
    rcases hu with ⟨hnil, rfl⟩ | ⟨us, hus, rfl⟩
    · rw [hnil]
      exact .byte_bind (.pure [])
    · have hitem : ∀ t : Text, t.Fits → ∀ u, Spelling.text t u → Reads Reader.text u (id t) :=
        fun t ht u hu => hu ▸ reads_text ht
      rw [← List.map_id (get s)]
      exact reads_array hitem (fun _ hne => if_neg hne) hfits.1 hfits.2 hus

theorem texts? {get : σ → List Text} {set : σ → List Text → σ} (hget : get acc = [])
    (hset : set acc [] = acc) (hfits : FitsList Text.Fits (get s)) :
    (Field.texts? name get set).Carries s
      (.unlessEmpty name get List.isEmpty (.list .text)) acc (set acc (get s)) := by
  refine (texts hget hfits).omitWhen fun hempty => ?_
  rw [List.isEmpty_iff.mp hempty, hset]

theorem cases {get : σ → KeyMap Text} {set : σ → KeyMap Text → σ} (hget : get acc = .empty)
    (hset : set acc .empty = acc) (hfits : FitsList (fun e => e.2.Fits) (get s).entries) :
    (Field.cases name get set).Carries s
      (.unlessEmpty name get KeyMap.isEmpty .cases) acc (set acc (get s)) where
  name := rfl
  omitted := rfl
  skipped hempty := by
    have hnil : get s = .empty := KeyMap.ext (List.isEmpty_iff.mp hempty)
    rw [hnil, hset]
  written _ := ⟨_, .refl _, rfl⟩
  read _ u hu := by
    obtain ⟨es, hes, rfl⟩ := hu
    refine Reads.map ?_ (set acc)
    rw [hget]
    exact reads_cases hes hfits.1 hfits.2

end Field.Carries

/-! ## Records -/

/-- Fields are told apart by their names. -/
structure Named (fields : List (Field σ)) : Prop where
  distinct : (fields.map Field.name).Nodup
  short : ∀ f ∈ fields, f.name.Fits
  few : fields.length < limit

theorem Named.find? {fields : List (Field σ)} {f : Field σ} (h : Named fields) (hf : f ∈ fields) :
    fields.find? (·.name = f.name) = some f := by
  cases hfind : fields.find? (·.name = f.name) with
  | none => simpa using List.find?_eq_none.mp hfind f hf
  | some g =>
    have hname : g.name = f.name := by simpa using List.find?_some hfind
    rw [List.inj_on_of_nodup_map h.distinct (List.mem_of_find?_eq_some hfind) hf hname]

/-- The fields of `s`, one after the other, turn `acc` into `out`. -/
inductive Carries (s : σ) : List (Field σ) → List (Part σ) → (acc out : σ) → Prop
  | nil {acc : σ} : Carries s [] [] acc acc
  | cons {f : Field σ} {p : Part σ} {fs : List (Field σ)} {ps : List (Part σ)}
      {acc next out : σ} : f.Carries s p acc next → Carries s fs ps next out →
      Carries s (f :: fs) (p :: ps) acc out

namespace Carries

variable {s acc out : σ} {fs fields : List (Field σ)} {ps : List (Part σ)}

theorem written (h : Carries s fs ps acc out) :
    Parts s ps (fs.filter fun f => !f.omitted s).length
      ((fs.filter fun f => !f.omitted s).flatMap fun f => Wire.text f.name ++ f.write s) := by
  induction h with
  | nil => exact .nil
  | @cons f p fs ps acc next out hf _ ih =>
    cases homit : p.omitted s with
    | true =>
      rw [List.filter_cons_of_neg (by rw [hf.omitted, homit]; decide)]
      exact .omitted homit ih
    | false =>
      rw [List.filter_cons_of_pos (by rw [hf.omitted, homit]; decide), List.length_cons,
        List.flatMap_cons, List.append_assoc, hf.name]
      exact .kept homit (hf.written homit) ih

theorem reads (hnamed : Named fields) (h : Carries s fs ps acc out) (hfs : fs ⊆ fields) :
    ∀ n u, Parts s ps n u → n ≤ fs.length ∧ Reads (readNamed fields n acc) u out := by
  induction h with
  | nil =>
    intro n u hu
    cases hu
    exact ⟨Nat.le_refl 0, .pure _⟩
  | @cons f p fs ps acc next out hf _ ih =>
    intro n u hu
    obtain ⟨hmem, hsub⟩ := List.cons_subset.mp hfs
    cases hu with
    | omitted homit hrest =>
      rw [← hf.skipped homit]
      obtain ⟨hle, hreads⟩ := ih hsub _ _ hrest
      exact ⟨Nat.le_succ_of_le hle, hreads⟩
    | @kept _ _ n v u homit hv hrest =>
      obtain ⟨hle, hreads⟩ := ih hsub _ _ hrest
      refine ⟨Nat.succ_le_succ hle, ?_⟩
      rw [← hf.name]
      refine (reads_text (hnamed.short f hmem)).bind ?_
      rw [hnamed.find? hmem]
      exact (hf.read homit v hv).bind hreads

end Carries

/-- Records that satisfy `P` are written as `w` says, and every such spelling of one is read as
what `g` makes of it. -/
def Faithful (fields : List (Field σ)) (zero : σ) (w : Spelling σ) (P : σ → Prop) (g : σ → σ) :
    Prop :=
  ∀ s, P s → w s (writeRecord fields s) ∧ ∀ u, w s u → Reads (readRecord zero fields zero) u (g s)

theorem faithful_of_carries {fields : List (Field σ)} {parts : List (Part σ)} {zero : σ}
    {P : σ → Prop} {g : σ → σ} (hnamed : Named fields)
    (h : ∀ s, P s → Carries s fields parts zero (g s)) :
    Faithful fields zero (.record parts) P g := by
  intro s hs
  refine ⟨⟨_, _, (h s hs).written, rfl⟩, ?_⟩
  rintro u ⟨n, v, hv, rfl⟩
  obtain ⟨hle, hreads⟩ := (h s hs).reads hnamed (List.Subset.refl _) n v hv
  obtain ⟨head, tail, heq, hmap, hlength⟩ := mapHead_eq (Nat.lt_of_le_of_lt hle hnamed.few)
  rw [heq]
  refine .byte_bind ?_
  rw [if_neg (isMap_head hmap).1, if_pos hmap]
  exact hlength.bind hreads

/-- A list of records, each of which is read into a new one. -/
theorem Faithful.list {fields : List (Field α)} {zero : α} {w : Spelling α} {P : α → Prop}
    {g : α → α} {get : σ → List α} {set : σ → List α → σ} {name : Text} {s acc : σ}
    (h : Faithful fields zero w P g) (hget : get acc = []) (hfits : FitsList P (get s)) :
    (Field.list name zero (writeRecord fields) (readRecord zero fields) get set).Carries s
      (.always name get (.list w)) acc (set acc ((get s).map g)) where
  name := rfl
  omitted := rfl
  skipped := nofun
  written _ := .inr ⟨_, List.forall₂_map_right_iff.mpr
    (List.forall₂_same.mpr fun x hx => (h x (hfits.2 x hx)).1), rfl⟩
  read _ u hu := by
    refine Reads.map ?_ (set acc)
    rw [hget]
    rcases hu with ⟨hnil, rfl⟩ | ⟨us, hus, rfl⟩
    · rw [hnil]
      exact .byte_bind (.pure [])
    · exact reads_array (fun x hx => (h x hx).2) (fun _ hne => if_neg hne) hfits.1 hfits.2 hus

/-! ## Documents -/

theorem phi_faithful : Faithful phiFields {} .phi PhiDoc.Fits PhiDoc.unlined := by
  refine faithful_of_carries ⟨by decide, by decide, by decide⟩ fun p h => ?_
  exact .cons (.text h.1) <| .cons (.texts rfl h.2) .nil

theorem op_faithful : Faithful opFields {} .op OpDoc.Fits OpDoc.unlined := by
  refine faithful_of_carries ⟨by decide, by decide, by decide⟩ fun o h => ?_
  obtain ⟨htext, hargs, hcases, hhandlers⟩ := h
  exact .cons (.text (htext o.kind (by simp [OpDoc.texts]))) <|
    .cons (.text? rfl (htext o.name (by simp [OpDoc.texts]))) <|
    .cons (.text? rfl (htext o.result (by simp [OpDoc.texts]))) <|
    .cons (.texts? rfl rfl hargs) <|
    .cons (.text? rfl (htext o.cond (by simp [OpDoc.texts]))) <|
    .cons (.text? rfl (htext o.value (by simp [OpDoc.texts]))) <|
    .cons (.text? rfl (htext o.target (by simp [OpDoc.texts]))) <|
    .cons (.text? rfl (htext o.onTrue (by simp [OpDoc.texts]))) <|
    .cons (.text? rfl (htext o.onFalse (by simp [OpDoc.texts]))) <|
    .cons (.cases rfl rfl hcases) <|
    .cons (.text? rfl (htext o.default (by simp [OpDoc.texts]))) <|
    .cons (.text? rfl (htext o.body (by simp [OpDoc.texts]))) <|
    .cons (.texts? rfl rfl hhandlers) <|
    .cons (.text? rfl (htext o.last (by simp [OpDoc.texts]))) .nil

theorem block_faithful : Faithful blockFields {} .block BlockDoc.Fits BlockDoc.unlined := by
  refine faithful_of_carries ⟨by decide, by decide, by decide⟩ fun b h => ?_
  obtain ⟨hlabel, hphis, hops⟩ := h
  have hskip : b.phis.isEmpty = true → b.phis.map PhiDoc.unlined = [] := by
    intro hempty
    rw [List.isEmpty_iff.mp hempty, List.map_nil]
  exact .cons (.text hlabel) <|
    .cons ((phi_faithful.list rfl hphis).omitWhen fun hempty => by rw [hskip hempty]) <|
    .cons (op_faithful.list rfl hops) .nil

theorem func_faithful : Faithful funcFields {} .func FuncDoc.Fits FuncDoc.unlined := by
  refine faithful_of_carries ⟨by decide, by decide, by decide⟩ fun f h => ?_
  obtain ⟨hname, hentry, hblocks⟩ := h
  exact .cons (.text hname) <| .cons (.text? rfl hentry) <|
    .cons (block_faithful.list rfl hblocks) .nil

theorem document_faithful :
    Faithful documentFields {} .document Document.Fits Document.unlined := by
  refine faithful_of_carries ⟨by decide, by decide, by decide⟩ fun d h => ?_
  exact .cons (func_faithful.list rfl h) .nil

theorem decode_of_reads {d : Document} {t : Text} (rest : Text)
    (h : Reads (readRecord {} documentFields {}) t d) : decode (t ++ rest) = some d := by
  rw [decode, h rest]
  rfl

/-- Writing a document gives one of its spellings. Every spelling of it is read back, whatever
follows, as the document with all lines 0, and so are the bytes that were written. -/
theorem snapshot_loses_only_lines (d : Document) (hfits : d.Fits) :
    Spelling.document d (encode d) ∧ decode (encode d) = some d.unlined ∧
      ∀ t rest, Spelling.document d t → decode (t ++ rest) = some d.unlined := by
  obtain ⟨hwritten, hread⟩ := document_faithful d hfits
  refine ⟨hwritten, ?_, fun t rest ht => decode_of_reads rest (hread t ht)⟩
  have hdecode := decode_of_reads [] (hread _ hwritten)
  rwa [List.append_nil] at hdecode

/-- A name that is no text, an empty label, a phi node without operands and cases at both ends of
the keys. -/
def corners : Document where
  functions := [{
    name := [0xFF, 0x00]
    line := 2
    blocks := [{
      line := 4
      phis := [{ result := "p", line := 6 }]
      ops := [{
        kind := "switch"
        cond := "p"
        cases := .ofList [(Int64.maxValue, "b"), (-1, []), (Int64.minValue, "a")]
        line := 8 }] }] }]

theorem corners_survive : corners.Fits ∧ corners.unlined ≠ corners ∧
    Spelling.document corners (encode corners) ∧
    decode (encode corners) = some corners.unlined := by
  have hfits : corners.Fits := by decide +kernel
  obtain ⟨hwritten, hdecode, _⟩ := snapshot_loses_only_lines corners hfits
  exact ⟨hfits, by decide +kernel, hwritten, hdecode⟩

end Snapshot

end FlowGraph
