import Mathlib
import FlowGraph.Proofs.Dump
import FlowGraph.Proofs.Outcome
import FlowGraph.Proofs.Threading.Pass

/-! Dumps into a sink with room for a limited number of bytes. A dump is a long series of writes,
the heading, every line and a closing blank line, and the room may end at any byte of any of them.
What the sink holds in the end depends on the whole text only and not on how it was cut into writes,
and the dump that lacks room decides how a run ends and in which state it leaves the graph. -/

namespace FlowGraph

/-! ## Lines -/

theorem Text.flatten_intercalate (sep : Text) (ls : List (List Text)) :
    (List.intercalate [sep] ls).flatten = Text.join sep (ls.map List.flatten) := by
  induction ls with
  | nil => rfl
  | cons l ls ih =>
    cases ls with
    | nil => simp [Text.join]
    | cons l' ls =>
      rw [List.intercalate_cons_cons, List.flatten_append, List.flatten_append, ih]
      simp [Text.join]

namespace Func

theorem flatten_dumpOpLines (fn : Func) (order : List BlockRef) (op : Op) :
    (fn.dumpOpLines order op).flatten = fn.dumpOp order op := by
  rw [dumpOpLines, dumpOp, List.flatten_cons, List.flatten_eq_flatMap, List.flatMap_assoc]
  simp only [List.flatMap_map, id]

theorem flatten_dumpBlockLines (fn : Func) (order : List BlockRef) (b : BlockRef) :
    (fn.dumpBlockLines order b).flatten = fn.dumpBlock order b := by
  have hops : ((fn.block b).ops.flatMap fun o => fn.dumpOpLines order (fn.op o)).flatten =
      (fn.block b).ops.flatMap fun o => fn.dumpOp order (fn.op o) := by
    rw [List.flatten_eq_flatMap, List.flatMap_assoc]
    simp only [← List.flatten_eq_flatMap, flatten_dumpOpLines]
  simp only [dumpBlockLines, dumpBlock, List.flatten_append, List.flatten_singleton, hops,
    ← List.flatMap_def]

/-- The lines put together are the dump. -/
theorem flatten_dumpLinesFrom (fn : Func) (entry : BlockRef) :
    (fn.dumpLinesFrom entry).flatten = fn.dumpFrom entry := by
  simp only [dumpLinesFrom, dumpFrom, List.flatten_filter_ne_nil, Text.flatten_intercalate,
    List.map_map, Function.comp_def, flatten_dumpBlockLines]

end Func

/-! ## Sinks -/

namespace Sink

variable {limit : Option Nat} {text rest : Text}

/-- Whether a sink has room for a whole text. -/
def Takes (limit : Option Nat) (text : Text) : Prop := ∀ n ∈ limit, text.length ≤ n

theorem takes_some {n : Nat} : Takes (some n) text ↔ text.length ≤ n := by simp [Takes]

instance : Decidable (Takes limit text) :=
  match limit with
  | none => .isTrue nofun
  | some _ => decidable_of_iff _ takes_some.symm

/-- The sink after a text was offered to it, in one piece or in many. -/
def offered (limit : Option Nat) (text : Text) : Sink :=
  ⟨limit, match limit with
    | none => text
    | some n => text.take n⟩

theorem offered_nil (limit : Option Nat) : offered limit [] = { limit } := by
  cases limit <;> simp [offered]

theorem takes_nil (limit : Option Nat) : Takes limit [] := fun n _ => Nat.zero_le n

theorem write_offered (h : Takes limit text) (rest : Text) :
    (offered limit text).write rest =
      (offered limit (text ++ rest), decide (Takes limit (text ++ rest))) := by
  cases limit with
  | none => simp [offered, write, Takes]
  | some n =>
    have hroom := takes_some.mp h
    simp [offered, write, takes_some, List.take_append, List.take_of_length_le hroom]

/-- A sink without room for the beginning of a text holds no more of the whole. -/
theorem offered_append (h : ¬ Takes limit text) (rest : Text) :
    offered limit (text ++ rest) = offered limit text := by
  cases limit with
  | none => exact absurd nofun h
  | some n =>
    have hfull : n ≤ text.length := Nat.le_of_not_le fun hroom => h (takes_some.mpr hroom)
    simp only [offered, List.take_append_of_le_length hfull]

theorem Takes.left (h : Takes limit (text ++ rest)) : Takes limit text := by
  intro n hn
  have hboth := h n hn
  rw [List.length_append] at hboth
  omega

end Sink

/-! ## Runs -/

/-- Whether the graph is dumped at a moment of a pass. -/
def Options.dumps (o : Options) : Moment → Text → Bool
  | .before => o.dumpsBefore
  | .after => o.dumpsAfter

namespace Run

open Sink

variable {x y : M Unit} {k : Unit → M Unit} {error : RunError} {text rest before : Text} {s : Run}
  {limit : Option Nat} {m : Moment} {name : Text} {o : Options}

/-- What the dump at a moment of a pass comes to. -/
def shown (o : Options) (m : Moment) (pass : Text) (fn : Func) : Text :=
  if o.dumps m pass then heading m pass fn ++ fn.dump.toOption.getD [] ++ "\n" else []

/-- The run with other contents of the dump. -/
def offered (s : Run) (limit : Option Nat) (text : Text) : Run :=
  { s with out := { s.out with dump := .offered limit text } }

/-- The action writes `text` into the dump and does nothing else. It breaks off with `error` if
there is no room for all of it. -/
def Writes (s : Run) (x : M Unit) (error : RunError) (text : Text) : Prop :=
  ∀ limit before, Takes limit before → x.run (s.offered limit before) =
    (if Takes limit (before ++ text) then .ok () else .error error,
      s.offered limit (before ++ text))

theorem run_get_bind (s : Run) (f : Run → M Unit) : (get >>= f).run s = (f s).run s := rfl

theorem run_write (s : Run) (error : RunError) (text : Text) : (write error text).run s =
    (if (s.out.writeDump text).2 then .ok () else .error error,
      { s with out := (s.out.writeDump text).1 }) := by
  rw [write, run_get_bind]
  rcases s.out.writeDump text with ⟨out, _ | _⟩
  · rfl
  · rfl

theorem writes_write (s : Run) (error : RunError) (text : Text) :
    s.Writes (write error text) error text := by
  intro limit before h
  have hwrite : (s.offered limit before).out.writeDump text =
      ((s.offered limit (before ++ text)).out, decide (Takes limit (before ++ text))) := by
    simp only [Outputs.writeDump, offered, write_offered h]
  rw [run_write, hwrite]
  simp only [decide_eq_true_eq]
  rfl

theorem Writes.nil : s.Writes (pure ()) error [] := by
  intro limit before h
  simp only [List.append_nil, if_pos h]
  rfl

theorem Writes.run_bind (h : s.Writes x error text) (hbefore : Takes limit before) :
    (x >>= k).run (s.offered limit before) = if Takes limit (before ++ text)
      then (k ()).run (s.offered limit (before ++ text))
      else (.error error, s.offered limit (before ++ text)) := by
  rw [FlowGraph.run_bind, h limit before hbefore]
  by_cases hroom : Takes limit (before ++ text)
  · rw [if_pos hroom, if_pos hroom]
  · rw [if_neg hroom, if_neg hroom]

theorem Writes.andThen (h : s.Writes x error text) (h' : s.Writes y error rest) :
    s.Writes (x >>= fun _ => y) error (text ++ rest) := by
  intro limit before hbefore
  rw [h.run_bind hbefore, ← List.append_assoc]
  split
  · next hroom => exact h' limit _ hroom
  · next hroom =>
    rw [if_neg fun hall => hroom hall.left]
    simp only [offered, offered_append hroom]

theorem writes_forM (s : Run) (error : RunError) (lines : List Text) :
    s.Writes (lines.forM (write error)) error lines.flatten := by
  induction lines with
  | nil => exact .nil
  | cons line lines ih => exact (writes_write s error line).andThen ih

/-- Heading, lines and the closing blank line make up one text. -/
theorem writes_dump {entry : BlockRef} (hentry : s.fn.entry = some entry) (m : Moment)
    (name : Text) : s.Writes (dump m name) (.dump m name)
      (heading m name s.fn ++ s.fn.dumpFrom entry ++ "\n") := by
  have hlines : s.fn.dumpLines = .ok (s.fn.dumpLinesFrom entry) := by rw [Func.dumpLines, hentry]
  have hwrites := ((writes_write s (.dump m name) (heading m name s.fn)).andThen
    (writes_forM s (.dump m name) (s.fn.dumpLinesFrom entry))).andThen
      (writes_write s (.dump m name) "\n")
  rw [Func.flatten_dumpLinesFrom] at hwrites
  intro limit before hbefore
  rw [← hwrites limit before hbefore, bind_assoc, dump, run_get_bind]
  show ExceptT.run (do
    write (.dump m name) (heading m name s.fn)
    (← liftFault s.fn.dumpLines).forM (write (.dump m name))
    write (.dump m name) "\n") _ = _
  rw [hlines]
  rfl

/-- The dump at a moment of a pass, if it is asked for. -/
def dumpIf (o : Options) (m : Moment) (name : Text) : M Unit :=
  if o.dumps m name then dump m name else pure ()

theorem writes_dumpIf (h : s.fn.entry.isSome) (o : Options) (m : Moment) (name : Text) :
    s.Writes (dumpIf o m name) (.dump m name) (shown o m name s.fn) := by
  obtain ⟨entry, hentry⟩ := Option.isSome_iff_exists.mp h
  have hdump : s.fn.dump = .ok (s.fn.dumpFrom entry) := by rw [Func.dump, hentry]
  unfold dumpIf shown
  split
  · rw [hdump]
    exact writes_dump hentry m name
  · exact .nil

/-- A pass without checks. -/
theorem pass_eq (hverify : o.verify = false) (p : Pass) : pass o p = (do
    dumpIf o .before p.name
    let s ← get
    apply p.apply
    report o p.name s.fn.countDead
    dumpIf o .after p.name) := by
  unfold pass dumpIf Options.dumps
  simp only [hverify, Bool.false_eq_true, if_false]
  split
  · rfl
  · exact (pure_bind _ _).symm

/-- Where a pass that leads to `w` leaves a run, its dumps apart. -/
def passed (s : Run) (o : Options) (name : Text) (w : Work) : Run :=
  { s with
    toWork := w
    out := s.out.logPass o w.fn.name name (w.fn.countDead - s.fn.countDead) }

theorem run_apply {w : Work} {a : Action Work Unit} {s : Run} (ha : a.run s.toWork = (.ok (), w)) :
    (apply a).run s = (.ok (), { s with toWork := w }) := by
  rw [apply, run_get_bind, ha]
  rfl

theorem run_report (s : Run) (o : Options) (name : Text) (n : Nat) :
    (report o name n).run s = (.ok (), { s with
      out := s.out.logPass o s.fn.name name (s.fn.countDead - n) }) := by
  unfold report Outputs.logPass
  split <;> rfl

/-- Unless the line about a pass goes into the dump, it does not matter what the dump holds. -/
theorem offered_passed (hlog : s.out.log = none → ¬ o.level ≤ Level.debug) (name : Text) (w : Work)
    (limit : Option Nat) (text : Text) :
    (s.offered limit text).passed o name w = (s.passed o name w).offered limit text := by
  unfold passed offered Outputs.logPass Outputs.writeLog
  split
  · next hlevel =>
    cases hout : s.out.log with
    | none => exact absurd hlevel (hlog hout)
    | some log => simp
  · rfl

/-- How a pass without checks ends, for every limit of the dumps. -/
theorem run_pass {p : Pass} {w : Work} (hverify : o.verify = false)
    (hp : p.apply.run s.toWork = (.ok (), w)) (hentry : s.fn.entry.isSome)
    (hentry' : w.fn.entry.isSome) (hlog : s.out.log = none → ¬ o.level ≤ Level.debug)
    (limit : Option Nat) :
    (pass o p).run (s.offered limit []) =
      let first := shown o .before p.name s.fn
      let both := first ++ shown o .after p.name w.fn
      if Takes limit first then
        (if Takes limit both then .ok () else .error (.dump .after p.name),
          (s.passed o p.name w).offered limit both)
      else (.error (.dump .before p.name), s.offered limit first) := by
  have hbefore := writes_dumpIf hentry o .before p.name
  have hafter : (s.passed o p.name w).Writes (dumpIf o .after p.name) (.dump .after p.name)
      (shown o .after p.name w.fn) := writes_dumpIf hentry' o .after p.name
  rw [pass_eq hverify, hbefore.run_bind (takes_nil limit), List.nil_append]
  by_cases hroom : Takes limit (shown o .before p.name s.fn)
  · have happly := run_apply (s := s.offered limit (shown o .before p.name s.fn)) hp
    simp only [if_pos hroom]
    rw [← hafter limit _ hroom, ← offered_passed hlog, run_get_bind, FlowGraph.run_bind, happly]
    dsimp only
    rw [FlowGraph.run_bind, run_report]
    rfl
  · simp only [if_neg hroom]

theorem run_optimize (o : Options) (s : Run) :
    (optimize o).run s = (pass o Pass.jumpThreading).run s := by
  show (pass o Pass.jumpThreading >>= fun _ => pure ()).run s = _
  rw [bind_pure_unit]

/-- How a run over `fn` ends whose dumps, `first` before the pass and `second` behind it, find room
for `n` bytes, when the pass leads to `w`. -/
structure CutOff (fn : Func) (stats : Stats) (w : Work) (first second : Text) (n : Nat)
    (r : Except RunError Unit) (t : Run) : Prop where
  written : t.out.dump.written = (first ++ second).take n
  fails : (∃ e, r = .error e) ↔ n < (first ++ second).length
  early : r = .error (.dump .before Pass.jumpThreading.name) ↔ n < first.length
  late : r = .error (.dump .after Pass.jumpThreading.name) ↔
    first.length ≤ n ∧ n < (first ++ second).length
  untouched : n < first.length → t.toWork = ⟨fn, stats⟩
  passed : first.length ≤ n → t.toWork = w

/-- How a run without checks ends, for every limit of the dumps. -/
theorem run_optimize_limited {fn : Func} {stats : Stats} {w : Work} {log : Option Sink}
    (hverify : o.verify = false) (hp : threadJumps.run ⟨fn, stats⟩ = (.ok (), w))
    (hentry : fn.entry.isSome) (hentry' : w.fn.entry.isSome)
    (hlog : log = none → ¬ o.level ≤ Level.debug) (limit : Option Nat) :
    ∃ log', (optimize o).run { fn, stats, out := { dump := { limit }, log } } =
      let first := shown o .before Pass.jumpThreading.name fn
      let both := first ++ shown o .after Pass.jumpThreading.name w.fn
      if Takes limit first then
        (if Takes limit both then .ok () else .error (.dump .after Pass.jumpThreading.name),
          { w with out := { dump := .offered limit both, log := log' } })
      else (.error (.dump .before Pass.jumpThreading.name),
        { fn, stats, out := { dump := .offered limit first, log } }) := by
  let s : Run := { fn, stats, out := { log } }
  have hpass := run_pass (s := s) (p := Pass.jumpThreading) hverify hp hentry hentry' hlog limit
  refine ⟨(s.passed o Pass.jumpThreading.name w).out.log, ?_⟩
  rw [run_optimize, ← offered_nil]
  exact hpass

/-- What a limit does is read off the lengths of the dumps. -/
theorem cutOff_of_run {fn : Func} {stats : Stats} {w : Work} {log log' : Option Sink}
    {first second : Text} {n : Nat} {r : Except RunError Unit} {t : Run}
    (h : (r, t) = if Takes (some n) first then
        (if Takes (some n) (first ++ second) then .ok ()
          else .error (.dump .after Pass.jumpThreading.name),
          { w with out := { dump := .offered (some n) (first ++ second), log := log' } })
      else (.error (.dump .before Pass.jumpThreading.name),
        { fn, stats, out := { dump := .offered (some n) first, log } })) :
    CutOff fn stats w first second n r t := by
  simp only [takes_some] at h
  rcases Nat.lt_or_ge n first.length with hfirst | hfirst
  · rw [if_neg (Nat.not_le_of_lt hfirst)] at h
    obtain ⟨rfl, rfl⟩ := Prod.mk.inj h
    have hboth : n < (first ++ second).length := by
      rw [List.length_append]
      omega
    exact ⟨(List.take_append_of_le_length (Nat.le_of_lt hfirst)).symm, iff_of_true ⟨_, rfl⟩ hboth,
      iff_of_true rfl hfirst, iff_of_false nofun fun hlate => Nat.not_lt_of_le hlate.1 hfirst,
      fun _ => rfl, fun hle => absurd hfirst (Nat.not_lt_of_le hle)⟩
  rw [if_pos hfirst] at h
  obtain ⟨rfl, rfl⟩ := Prod.mk.inj h
  have hlate : ¬ n < first.length := Nat.not_lt_of_le hfirst
  by_cases hboth : (first ++ second).length ≤ n
  · rw [if_pos hboth]
    exact ⟨rfl, iff_of_false nofun (Nat.not_lt_of_le hboth), iff_of_false nofun hlate,
      iff_of_false nofun fun hn => Nat.not_lt_of_le hboth hn.2, fun hn => absurd hn hlate,
      fun _ => rfl⟩
  · rw [if_neg hboth]
    have hlack := Nat.lt_of_not_le hboth
    exact ⟨rfl, iff_of_true ⟨_, rfl⟩ hlack, iff_of_false nofun hlate,
      iff_of_true rfl ⟨hfirst, hlack⟩, fun hn => absurd hn hlate, fun _ => rfl⟩

end Run

/-- A dump without room leaves exactly the bytes there is room for. The graph stays as it was if the
dump before the pass fails, and is what the pass makes of it in all other cases. The sink is there
for dumps alone: either the log has a sink of its own, or it gets no line about the pass. -/
theorem dump_failures_exact {path : Text} {d : Document} {st : Stats} {fns : List Func} {fn : Func}
    (hbuild : ((d.build path).run st).1 = .ok fns) (hfn : fn ∈ fns) (stats : Stats) {o : Options}
    (hverify : o.verify = false) :
    ∃ w, threadJumps.run ⟨fn, stats⟩ = (.ok (), w) ∧
      let first := Run.shown o .before Pass.jumpThreading.name fn
      let second := Run.shown o .after Pass.jumpThreading.name w.fn
      ∀ log : Option Sink, (log = none → ¬ o.level ≤ Level.debug) →
        (∃ log', (Run.optimize o).run { fn, stats, out := { log } } =
          (.ok (), { w with out := { dump := { written := first ++ second }, log := log' } })) ∧
        ∀ n, Run.CutOff fn stats w first second n
          ((Run.optimize o).run { fn, stats, out := { dump := { limit := some n }, log } }).1
          ((Run.optimize o).run { fn, stats, out := { dump := { limit := some n }, log } }).2 := by
  have hw : fn.Loaded := Document.loaded_of_ok hbuild hfn
  obtain ⟨entry, hentry, -⟩ := hw.entry
  obtain ⟨t, hp, hpassed⟩ := Threading.threadJumps_passed hw hentry stats
  have hsome : fn.entry.isSome := Option.isSome_of_eq_some hentry
  have hsome' : t.fn.entry.isSome := by rwa [hpassed.sound.redirected.alike.entry]
  refine ⟨t.toWork, hp, fun log hlog => ⟨?_, fun n => ?_⟩⟩
  · exact Run.run_optimize_limited hverify hp hsome hsome' hlog none
  · obtain ⟨log', hrun⟩ := Run.run_optimize_limited hverify hp hsome hsome' hlog (some n)
    exact Run.cutOff_of_run hrun

/-- The entry jumps by way of `x`, which the pass eliminates. -/
def detour : Document where
  functions := [{
    name := "f"
    blocks := [
      { label := "e", ops := [{ kind := "jump", target := "x" }] },
      { label := "x", ops := [{ kind := "jump", target := "d" }] },
      { label := "d", ops := [{ kind := "return" }] }] }]

def detourFunc : Func where
  name := "f"
  entry := some 0
  blocks := [
    { id := 1, ops := [0] },
    { id := 2, ops := [1], parents := [some 0] },
    { id := 3, ops := [2], parents := [some 1] }]
  ops := [.jump (some 1), .jump (some 2), .ret none]

def detourThreaded : Func where
  name := "f"
  entry := some 0
  blocks := [
    { id := 1, ops := [0] },
    { id := 2, ops := [1], dead := true, parents := [some 0] },
    { id := 3, ops := [2], parents := [some 0] }]
  ops := [.jump (some 2), .jump (some 2), .ret none]

def dumpsBoth : Options := { dumpBefore := "*", dumpAfter := "Jump Threading" }

set_option maxRecDepth 1024 in
/-- The dumps take 178 and 115 bytes. With room for 60 the first one fails, with room for 200 the
second one. -/
theorem detour_cut :
    ((detour.build "f.yaml").run {}).1 = .ok [detourFunc] ∧ dumpsBoth.verify = false ∧
      let run n := (Run.optimize dumpsBoth).run
        { fn := detourFunc, out := { dump := { limit := some n } } }
      ((run 60).1 = .error (.dump .before "Jump Threading") ∧ (run 60).2.fn = detourFunc) ∧
      ((run 200).1 = .error (.dump .after "Jump Threading") ∧ (run 200).2.fn = detourThreaded) := by
  have hbuild : ((detour.build "f.yaml").run {}).1 = .ok [detourFunc] := by decide +kernel
  obtain ⟨w, hp, hruns⟩ := dump_failures_exact hbuild List.mem_cons_self {} (o := dumpsBoth) rfl
  obtain ⟨-, hcut⟩ := hruns none fun _ => by decide
  have hthreaded : (threadJumps.run ⟨detourFunc, {}⟩).2.fn = detourThreaded := by cbv
  rw [hp] at hthreaded
  have hfirst : (Run.shown dumpsBoth .before Pass.jumpThreading.name detourFunc).length = 178 := by
    cbv
  have hboth : (Run.shown dumpsBoth .before Pass.jumpThreading.name detourFunc ++
      Run.shown dumpsBoth .after Pass.jumpThreading.name w.fn).length = 293 := by
    rw [hthreaded]
    cbv
  have hearly := (hcut 60).untouched (by rw [hfirst]; decide)
  have hlate := (hcut 200).passed (by rw [hfirst]; decide)
  refine ⟨hbuild, rfl, ⟨(hcut 60).early.mpr ?_, congrArg Work.fn hearly⟩,
    (hcut 200).late.mpr ?_, (congrArg Work.fn hlate).trans hthreaded⟩
  · rw [hfirst]
    decide
  · rw [hfirst, hboth]
    decide

end FlowGraph
