import Mathlib
import FlowGraph.Command.Run
import FlowGraph.Proofs.Ensures
import FlowGraph.Proofs.Files

/-! The `simplify` command with an output file against the same command without one. The file is
made before the fixture is read, so the two do the same work exactly when the fixture is another
file. They are two runs of the program, so each has printers of its own. -/

namespace FlowGraph

/-! ## Formats -/

namespace Format

/-- Every run prints the functions alike. -/
def Fixed (fns : List Func) : Format → Prop
  | text | dot | yaml => True
  | snapshot => ∀ d, Document.ofFuncs fns = .ok d → d.SingleCased
  | listing => False

variable {format : Format} {fns : List Func} {t u : Text} {printers printers' : Printers}

theorem Fixed.render_eq (h : format.Fixed fns) :
    format.render printers fns = format.render printers' fns := by
  cases format with
  | text | dot | yaml => rfl
  | snapshot =>
    simp only [render]
    cases hd : Document.ofFuncs fns with
    | error e => rfl
    | ok d =>
      have hsnapshot : printers.snapshot d = printers'.snapshot d :=
        (printers.snapshot_eq_encode d (h d hd)).trans
          (printers'.snapshot_eq_encode d (h d hd)).symm
      exact congrArg Except.ok hsnapshot
  | listing => exact h.elim

/-- Which printers there are does not matter to whether functions can be printed. -/
theorem exists_render (h : format.render printers fns = .ok t) (printers' : Printers) :
    ∃ u, format.render printers' fns = .ok u := by
  cases format with
  | text | dot | yaml => exact ⟨t, h⟩
  | snapshot | listing =>
    simp only [render] at h ⊢
    cases hd : Document.ofFuncs fns with
    | error e =>
      rw [hd] at h
      cases h
    | ok d => exact ⟨_, rfl⟩

/-- Snapshots by two runs have the same bytes, though not in the same order. -/
theorem perm_of_render_snapshot (h : snapshot.render printers fns = .ok t)
    (h' : snapshot.render printers' fns = .ok u) : u.Perm t := by
  simp only [render] at h h'
  cases hd : Document.ofFuncs fns with
  | error e =>
    rw [hd] at h
    cases h
  | ok d =>
    rw [hd] at h h'
    cases h
    cases h'
    exact (printers'.snapshot_perm d).trans (printers.snapshot_perm d).symm

theorem exists_render_nil (printers : Printers) (format : Format) :
    ∃ blank, format.render printers [] = .ok blank := by
  cases format <;> exact ⟨_, rfl⟩

end Format

/-! ## Flags -/

namespace Flag

theorem readAll_cons (flags : List Flag) (settings : Settings) (plain : List Text) (a : Text)
    (rest : List Text) : readAll flags settings plain (a :: rest) =
      if a = "--" then .ok (settings, plain ++ rest)
      else (read flags a rest.head?).bind fun r =>
        readAll flags (r.settings ++ settings) (plain ++ r.plain)
          (rest.drop r.usesNext.toNat) := by
  rw [readAll]
  by_cases ha : a = "--"
  · rw [if_pos ha, if_pos ha]
  · rw [if_neg ha, if_neg ha]
    cases read flags a rest.head? <;> rfl

/-- What is read later comes before what was read earlier. -/
theorem readAll_eq_map (flags : List Flag) (args : List Text) : ∀ settings plain,
    readAll flags settings plain args =
      (readAll flags [] [] args).map fun r => (r.1 ++ settings, plain ++ r.2) := by
  -- on the length, since an argument may take the next one along
  induction hn : args.length using Nat.strong_induction_on generalizing args with
  | _ n ih =>
    intro settings plain
    cases args with
    | nil => simp [readAll, Except.map]
    | cons a rest =>
      rw [readAll_cons, readAll_cons flags []]
      split
      · simp [Except.map]
      · cases read flags a rest.head? with
        | error e => rfl
        | ok r =>
          have hless : (rest.drop r.usesNext.toNat).length < n := by
            rw [← hn, List.length_drop, List.length_cons]
            omega
          have hrest := ih _ hless _ rfl
          show readAll flags (r.settings ++ settings) (plain ++ r.plain) _ =
            (readAll flags (r.settings ++ []) ([] ++ r.plain) _).map _
          rw [hrest (r.settings ++ settings), hrest (r.settings ++ [])]
          cases readAll flags [] [] (rest.drop r.usesNext.toNat) with
          | error e => rfl
          | ok s => simp [Except.map]

end Flag

namespace Command

theorem read_output (o : Text) : Flag.read simplify.flags "-o" (some o) =
    .ok { settings := [(Text.ofString "output", o)], usesNext := true } := by
  rfl

theorem ofLine_simplify (args : List Text) :
    ofLine ("simplify" :: args) = .ok (simplify, args) := by
  have hplain : Text.ofString "simplify" ≠ "--" := by decide
  have hnext : Flag.takesNext globalFlags "simplify" = false := by decide
  have hwords : words ("simplify" :: args) = Text.ofString "simplify" :: words args := by
    rw [words, if_neg hplain, hnext]
    rfl
  have hname : ofName? "simplify" = some simplify := by decide
  have hdrop : dropWord "simplify" ("simplify" :: args) = args := by
    rw [dropWord, if_neg hplain, hnext]
    rfl
  rw [ofLine, hwords]
  simp only [hname, hdrop]

/-- The flags of a line with an output file are those of the line without it, and the file. -/
theorem readAll_output {args plain : List Text} {flags : Settings} (o : Text)
    (h : Flag.readAll simplify.flags [] [] args = .ok (flags, plain)) :
    Flag.readAll simplify.flags [] [] ("-o" :: o :: args) =
      .ok (flags ++ [(Text.ofString "output", o)], plain) := by
  have hplain : Text.ofString "-o" ≠ "--" := by decide
  rw [Flag.readAll_cons, if_neg hplain, List.head?_cons, read_output]
  show Flag.readAll simplify.flags [(Text.ofString "output", o)] [] args = _
  rw [Flag.readAll_eq_map, h]
  rfl

/-- A line that asks for no help does the work of the command. -/
theorem runLine_simplify (setting : Setting) {args : List Text} {flags : Settings} {path : Text}
    (hargs : Flag.readAll simplify.flags [] [] args = .ok (flags, [path]))
    (hhelp : flags.isOn "help" = false) :
    runLine setting ("simplify" :: args) = (do
      let o ← configure setting flags
      runSimplify setting.printers o flags path) := by
  rw [runLine, ofLine_simplify]
  show run setting simplify args = _
  rw [run, hargs]
  show (if flags.isOn "help" || _ then _ else _) = _
  rw [hhelp]
  rfl

section

variable (flags : Settings) (o : Text) {name : Text} (h : name ≠ "output")

include h

theorem lookup_output :
    List.lookup name (flags ++ [(Text.ofString "output", o)]) = flags.lookup name := by
  have hne : (name == Text.ofString "output") = false := by simpa using h
  rw [List.lookup_append, List.lookup_cons, hne]
  simp

theorem value_output (fallback : Text) :
    Settings.value (flags ++ [(Text.ofString "output", o)]) name fallback =
      flags.value name fallback := by
  rw [Settings.value, Settings.value, lookup_output flags o h]

theorem isOn_output : Settings.isOn (flags ++ [(Text.ofString "output", o)]) name =
    flags.isOn name := by
  rw [Settings.isOn, Settings.isOn, lookup_output flags o h]

end

theorem configure_output (setting : Setting) (flags : Settings) (o : Text) :
    configure setting (flags ++ [(Text.ofString "output", o)]) = configure setting flags := by
  have hconfig : Text.ofString "config" ≠ "output" := by decide
  have hverify : Text.ofString "verify" ≠ "output" := by decide
  have hlevel : Text.ofString "log-level" ≠ "output" := by decide
  simp only [configure, value_output flags o hconfig, isOn_output flags o hverify,
    lookup_output flags o hverify, lookup_output flags o hlevel]

/-! ## What the work reads and changes -/

variable {α β : Type}

theorem run_lift {ε : Type} (cause : ε → CommandError) (r : Except ε α) (s : Shell) :
    (lift cause r).run s = (r.mapError cause, s) := by
  cases r <;> rfl

/-- An action that does not change the shell. -/
def Peeks (x : M α) : Prop := ∀ s, (x.run s).2 = s

theorem Peeks.bind {x : M α} {f : α → M β} (hx : Peeks x) (hf : ∀ a, Peeks (f a)) :
    Peeks (x >>= f) := by
  intro s
  have hs := hx s
  rw [run_bind]
  rcases hrun : x.run s with ⟨e | a, t⟩
  · rw [hrun] at hs
    exact hs
  · rw [hrun] at hs
    exact (hf a t).trans hs

theorem peeks_pure (a : α) : Peeks (pure a : M α) := fun _ => rfl

theorem peeks_lift {ε : Type} (cause : ε → CommandError) (r : Except ε α) :
    Peeks (lift cause r) := fun s => by rw [run_lift]

theorem configure_peeks (setting : Setting) (flags : Settings) :
    Peeks (configure setting flags) := by
  rw [configure]
  refine Peeks.bind (fun _ => rfl) fun s => ?_
  cases flags.lookup ("log-level" : Text) with
  | none =>
    by_cases hpath : List.isEmpty (flags.value "config" []) = true
    · simp only [if_pos hpath]
      exact (peeks_pure _).bind fun _ => peeks_pure _
    · simp only [if_neg hpath]
      exact (peeks_lift _ _).bind fun _ => peeks_pure _
  | some t =>
    by_cases hpath : List.isEmpty (flags.value "config" []) = true
    · simp only [if_pos hpath]
      exact (peeks_pure _).bind fun _ => (peeks_lift _ _).bind fun _ => peeks_pure _
    · simp only [if_neg hpath]
      exact (peeks_lift _ _).bind fun _ => (peeks_lift _ _).bind fun _ => peeks_pure _

/-- An action that works on the stream for errors alone. -/
def Confined (x : M α) : Prop := ∀ s files out,
  x.run { s with files, out } = ((x.run s).1, { (x.run s).2 with files, out })

theorem Confined.bind {x : M α} {f : α → M β} (hx : Confined x) (hf : ∀ a, Confined (f a)) :
    Confined (x >>= f) := by
  intro s files out
  rw [run_bind, run_bind, hx s files out]
  rcases x.run s with ⟨e | a, t⟩
  · rfl
  · exact hf a t files out

theorem confined_pure (a : α) : Confined (pure a : M α) := fun _ _ _ => rfl

theorem Confined.get_bind {f : Shell → M α} (h : ∀ s files out,
    (f { s with files, out }).run { s with files, out } =
      (((f s).run s).1, { ((f s).run s).2 with files, out })) : Confined (get >>= f) := h

theorem optimizeFunc_confined (o : Options) (fn : Func) (counts : Stats) :
    Confined (optimizeFunc o fn counts) := by
  rw [optimizeFunc]
  split
  -- the two branches differ by a line of the log
  on_goal 1 => refine Confined.bind (fun _ _ _ => rfl) fun _ => ?_
  all_goals
    refine Confined.get_bind fun s files out => ?_
    rcases (Run.optimize o).run { fn, stats := counts, out := { dump := s.err } } with ⟨e | _, _⟩
    · rfl
    · rfl

theorem optimizeAll_confined (o : Options) (fns : List Func) :
    ∀ counts, Confined (optimizeAll o fns counts) := by
  induction fns with
  | nil => exact fun counts => confined_pure _
  | cons fn fns ih =>
    intro counts
    rw [optimizeAll]
    exact (optimizeFunc_confined o fn counts).bind fun r => (ih r.2).bind fun _ => confined_pure _

theorem Confined.run_eq {x : M α} (hx : Confined x) (s : Shell) :
    x.run s = ((x.run s).1, { s with err := (x.run s).2.err }) :=
  hx s s.files s.out

/-! ## Loading and printing -/

section

variable {o : Options} {path name text : Text} {s t : Shell} {place : Place} {err : Sink}

/-- What a fixture with the given content, or without one, has in it. -/
def loaded (path : Text) (content : Except FileError Text) :
    Except CommandError (List Func × Stats) :=
  (content.mapError .fixtureFile).bind fun input =>
    let r := (Document.load path input).run {}
    (r.1.mapError .fixture).map fun fns => (fns, r.2)

theorem run_load (path : Text) (s : Shell) :
    (load path).run s = (loaded path (s.files.read path), s) := by
  rw [load, run_bind]
  show ExceptT.run (lift CommandError.fixtureFile (s.files.read path) >>= fun input => _) s = _
  rw [run_bind, run_lift]
  cases s.files.read path with
  | error e => rfl
  | ok input =>
    simp only [loaded, Except.mapError, Except.bind]
    rcases (Document.load path input).run {} with ⟨e | fns, counts⟩
    · rfl
    · rfl

/-- An empty fixture has no functions. -/
theorem loaded_empty (path : Text) : loaded path (.ok []) = .ok ([], {}) := by
  have hread : Yaml.Decode.run Document.yaml {} [] = .ok {} := by decide +kernel
  have hload : (Document.load path []).run {} = (.ok [], {}) := by
    rw [Document.load, Document.read, hread]
    rfl
  simp only [loaded, Except.mapError, Except.bind, hload]
  rfl

section

variable {printers : Printers} {format : Format} {fns : List Func}

theorem run_write_file (hformat : Format.ofName? name = some format)
    (hrender : format.render printers fns = .ok text) :
    (write printers name (some place) fns).run s =
      (.ok (), { s with files := s.files.put place text }) := by
  simp only [write, hformat, hrender]
  rfl

/-- A text that does not fit goes to the stream in part, which only some formats report. -/
theorem run_write_stream (hformat : Format.ofName? name = some format)
    (hrender : format.render printers fns = .ok text) : (write printers name none fns).run s =
      (if (!(s.out.write text).2 && format.mustFit) = true then .error (.full format.doing)
        else .ok (), { s with out := (s.out.write text).1 }) := by
  simp only [write, hformat, hrender]
  show ((print text >>= fun ok => if (!ok && format.mustFit) = true then
    throw (.full format.doing) else pure ()) : M Unit).run s = _
  have hprint : (print text).run s =
      (.ok (s.out.write text).2, { s with out := (s.out.write text).1 }) := rfl
  rw [run_bind, hprint]
  by_cases hfull : (!(s.out.write text).2 && format.mustFit) = true
  · simp only [if_pos hfull]
    rfl
  · simp only [if_neg hfull]
    rfl

theorem of_run_write_stream (h : (write printers name none fns).run s = (.ok (), t)) :
    ∃ format text, Format.ofName? name = some format ∧ format.render printers fns = .ok text ∧
      t = { s with out := (s.out.write text).1 } := by
  cases hformat : Format.ofName? name with
  | none =>
    simp only [write, hformat] at h
    cases h
  | some format =>
    cases hrender : format.render printers fns with
    | error e =>
      simp only [write, hformat, hrender] at h
      cases h
    | ok text =>
      rw [run_write_stream hformat hrender] at h
      exact ⟨format, text, rfl, hrender, (congrArg Prod.snd h).symm⟩

end

/-! ## Optimizing a fixture -/

theorem run_optimize (o : Options) (path : Text) (s : Shell) :
    (optimize o path).run s = match loaded path (s.files.read path) with
      | .ok r => (optimizeAll o r.1 r.2).run s
      | .error e => (.error e, s) := by
  rw [optimize, run_bind, run_load]
  cases loaded path (s.files.read path) <;> rfl

theorem run_optimize_of_loaded {r : List Func × Stats}
    (h : loaded path (s.files.read path) = .ok r) :
    (optimize o path).run s = (optimizeAll o r.1 r.2).run s := by
  rw [run_optimize, h]

variable {done : List Func × Stats}

/-- Of a shell, the work reads the fixture and writes to the stream for errors. -/
theorem run_optimize_files (h : (optimize o path).run s = (.ok done, t)) :
    t = { s with err := t.err } ∧ ∀ files : Files, files.read path = s.files.read path →
      (optimize o path).run { s with files } = (.ok done, { s with files, err := t.err }) := by
  cases hload : loaded path (s.files.read path) with
  | error e =>
    rw [run_optimize, hload] at h
    cases h
  | ok r =>
    have hrun : (optimizeAll o r.1 r.2).run s = (.ok done, t) :=
      (run_optimize_of_loaded hload).symm.trans h
    have hconfined := optimizeAll_confined o r.1 r.2
    refine ⟨?_, fun files hread => ?_⟩
    · have hsame := hconfined.run_eq s
      rw [hrun] at hsame
      exact congrArg Prod.snd hsame
    · have hload' : loaded path (files.read path) = .ok r := hread ▸ hload
      refine (run_optimize_of_loaded (s := { s with files }) hload').trans ?_
      rw [hconfined s files s.out, hrun]

/-- An empty fixture has nothing to work on. -/
theorem run_optimize_empty (hread : s.files.read path = .ok []) :
    (optimize o path).run s = (.ok ([], {}), s) := by
  rw [run_optimize, hread, loaded_empty]
  rfl

/-- The work on a fixture once the output is chosen. -/
def process (printers : Printers) (o : Options) (path name : Text) (target : Option Place) :
    M Unit := do
  let r ← optimize o path
  write printers name target r.1

/-- From a shell the functions `done` come out of a fixture, and are printed as `text`. -/
structure Renders (printers : Printers) (o : Options) (path name : Text) (s : Shell)
    (format : Format) (done : List Func × Stats) (text : Text) (err : Sink) : Prop where
  optimizes : (optimize o path).run s = (.ok done, { s with err })
  known : Format.ofName? name = some format
  shows : format.render printers done.1 = .ok text

variable {printers : Printers} {format : Format}

theorem Renders.of_stream (h : (process printers o path name none).run s = (.ok (), t)) :
    ∃ format done text err, Renders printers o path name s format done text err ∧
      t = { s with out := (s.out.write text).1, err } := by
  rw [process, run_bind] at h
  rcases hopt : (optimize o path).run s with ⟨e | done, u⟩
  · rw [hopt] at h
    cases h
  · rw [hopt] at h
    obtain ⟨format, text, hformat, hrender, rfl⟩ := of_run_write_stream h
    obtain ⟨hu, -⟩ := run_optimize_files hopt
    rw [hu] at hopt
    refine ⟨format, done, text, u.err, ⟨hopt, hformat, hrender⟩, ?_⟩
    rw [hu]

theorem Renders.run_stream (h : Renders printers o path name s format done text err)
    (hroom : (s.out.write text).2 = true) : (process printers o path name none).run s =
      (.ok (), { s with out := (s.out.write text).1, err }) := by
  rw [process, run_bind, h.optimizes]
  exact (run_write_stream h.known h.shows).trans (by rw [hroom]; rfl)

theorem Renders.run_file (h : Renders printers o path name s format done text err)
    (place : Place) : (process printers o path name (some place)).run s =
      (.ok (), { s with files := s.files.put place text, err }) := by
  rw [process, run_bind, h.optimizes]
  exact run_write_file h.known h.shows

end

/-! ## The command -/

/-- The options that the work is done with. -/
def simplifyOptions (o : Options) (flags : Settings) : Options :=
  { o with dumpBefore := flags.value "dump-before" o.dumpBefore
           dumpAfter := flags.value "dump-after" o.dumpAfter }

theorem runSimplify_eq (printers : Printers) (o : Options) (flags : Settings) (path : Text) :
    runSimplify printers o flags path = (do
      let target ← openOutput (flags.value "output" [])
      process printers (simplifyOptions o flags) path (flags.value "format" "text") target) := rfl

theorem run_openOutput {s : Shell} {path : Text} {files : Files} {place : Place}
    (h : s.files.create path = .ok (files, place)) :
    (openOutput path).run s = (.ok (some place), { s with files }) := by
  cases path with
  | nil => cases h
  | cons b rest =>
    rw [openOutput, if_neg (by simp), run_bind]
    show ExceptT.run (lift CommandError.output (s.files.create (b :: rest)) >>= fun r => _) s = _
    rw [h]
    rfl

theorem execute_eq_none_iff {setting : Setting} {args : List Text} {s t : Shell} :
    execute setting args s = (none, t) ↔ (runLine setting args).run s = (.ok (), t) := by
  rw [execute]
  rcases (runLine setting args).run s with ⟨e | ⟨⟩, u⟩
  · exact ⟨nofun, nofun⟩
  · exact ⟨fun h => by cases h; rfl, fun h => by cases h; rfl⟩

section

variable {setting : Setting} {args : List Text} {flags : Settings} {f o : Text} {shell t : Shell}
  {files : Files} {place : Place}

theorem run_simplify_stream (printers : Printers) (options : Options)
    (h : flags.lookup ("output" : Text) = none) (s : Shell) :
    (runSimplify printers options flags f).run s =
      (process printers (simplifyOptions options flags) f (flags.value "format" "text")
        none).run s := by
  have hpath : flags.value "output" [] = [] := by rw [Settings.value, h]; rfl
  rw [runSimplify_eq, hpath]
  rfl

theorem run_simplify_file (printers : Printers) (options : Options)
    (h : flags.lookup ("output" : Text) = none)
    (hcreate : shell.files.create o = .ok (files, place)) :
    (runSimplify printers options (flags ++ [(Text.ofString "output", o)]) f).run shell =
      (process printers (simplifyOptions options flags) f (flags.value "format" "text")
        (some place)).run { shell with files } := by
  have hpath : Settings.value (flags ++ [(Text.ofString "output", o)]) "output" [] = o := by
    rw [Settings.value, List.lookup_append, h]
    rfl
  have hbefore : Text.ofString "dump-before" ≠ "output" := by decide
  have hafter : Text.ofString "dump-after" ≠ "output" := by decide
  have hformat : Text.ofString "format" ≠ "output" := by decide
  rw [runSimplify_eq, hpath, simplifyOptions, value_output flags o hbefore,
    value_output flags o hafter, value_output flags o hformat, run_bind, run_openOutput hcreate]
  rfl

/-- A line of `simplify` gave `text` to the stream, which is what the functions `fns` that it made
of the fixture are printed as. -/
structure Printed (setting : Setting) (flags : Settings) (f : Text) (shell t : Shell)
    (options : Options) (format : Format) (fns : List Func) (text : Text) : Prop where
  configured : (configure setting flags).run shell = (.ok options, shell)
  optimized : ∃ counts, (optimize (simplifyOptions options flags) f).run shell =
    (.ok (fns, counts), { shell with err := t.err })
  known : Format.ofName? (flags.value "format" "text") = some format
  rendered : format.render setting.printers fns = .ok text
  out : t.out = (shell.out.write text).1
  files : t.files = shell.files

theorem Printed.of_execute (hargs : Flag.readAll simplify.flags [] [] args = .ok (flags, [f]))
    (hstream : flags.lookup ("output" : Text) = none) (hhelp : flags.isOn "help" = false)
    (hrun : execute setting ("simplify" :: args) shell = (none, t)) :
    ∃ options format fns text, Printed setting flags f shell t options format fns text := by
  have hpeek := configure_peeks setting flags shell
  rw [execute_eq_none_iff, runLine_simplify setting hargs hhelp, run_bind] at hrun
  rcases hconf : (configure setting flags).run shell with ⟨e | options, s⟩
  · rw [hconf] at hrun
    cases hrun
  · rw [hconf] at hrun hpeek
    obtain rfl : s = shell := hpeek
    have hwork := (run_simplify_stream setting.printers options hstream s).symm.trans hrun
    obtain ⟨format, done, text, err, hrender, rfl⟩ := Renders.of_stream hwork
    exact ⟨options, format, done.1, text, hconf, ⟨done.2, hrender.optimizes⟩, hrender.known,
      hrender.shows, rfl, rfl⟩

theorem execute_stream {options : Options} {format : Format} {done : List Func × Stats}
    {text : Text} {err : Sink}
    (hargs : Flag.readAll simplify.flags [] [] args = .ok (flags, [f]))
    (hstream : flags.lookup ("output" : Text) = none) (hhelp : flags.isOn "help" = false)
    (hconf : (configure setting flags).run shell = (.ok options, shell))
    (h : Renders setting.printers (simplifyOptions options flags) f (flags.value "format" "text")
      shell format done text err) (hroom : (shell.out.write text).2 = true) :
    execute setting ("simplify" :: args) shell =
      (none, { shell with out := (shell.out.write text).1, err }) := by
  rw [execute_eq_none_iff, runLine_simplify setting hargs hhelp, run_bind, hconf]
  exact (run_simplify_stream setting.printers options hstream shell).trans (h.run_stream hroom)

/-- The same line with an output file, from what the fixture comes to once the file is made. -/
theorem execute_file {options : Options} {format : Format} {done : List Func × Stats}
    {content : Text} {err : Sink}
    (hargs : Flag.readAll simplify.flags [] [] args = .ok (flags, [f]))
    (hstream : flags.lookup ("output" : Text) = none) (hhelp : flags.isOn "help" = false)
    (hcreate : shell.files.create o = .ok (files, place))
    (hconf : (configure setting flags).run shell = (.ok options, shell))
    (h : Renders setting.printers (simplifyOptions options flags) f (flags.value "format" "text")
      { shell with files } format done content err) :
    execute setting ("simplify" :: "-o" :: o :: args) shell =
      (none, { shell with files := files.put place content, err }) := by
  have hhelp' : Settings.isOn (flags ++ [(Text.ofString "output", o)]) "help" = false := by
    rw [isOn_output flags o (by decide), hhelp]
  rw [execute_eq_none_iff, runLine_simplify setting (readAll_output o hargs) hhelp',
    configure_output, run_bind, hconf]
  exact (run_simplify_file setting.printers options hstream hcreate).trans (h.run_file place)

/-- A run that prints to the stream, against another run of the same line with an output file. Files
other than the output stay as they are. If the fixture is another file, the output has the same
functions in the same format, and the very text that the stream was given in a format that leaves
nothing to the run. If the fixture is the output itself, its functions are lost: it is empty by the
time it is read, and the output is left as a rendering of no functions. -/
theorem output_file_of_stream (hargs : Flag.readAll simplify.flags [] [] args = .ok (flags, [f]))
    (hstream : flags.lookup ("output" : Text) = none) (hhelp : flags.isOn "help" = false)
    (hcreate : shell.files.create o = .ok (files, place))
    (hrun : execute setting ("simplify" :: args) shell = (none, t)) (printers : Printers) :
    ∃ options format fns text content u,
      Printed setting flags f shell t options format fns text ∧
      execute { setting with printers } ("simplify" :: "-o" :: o :: args) shell = (none, u) ∧
      u.out = shell.out ∧
      (∀ p, p ≠ place → u.files.look p = shell.files.look p) ∧
      u.files.read o = .ok content ∧
      (shell.files.resolve f ≠ .ok place → format.render printers fns = .ok content ∧
        (format.Fixed fns → content = text) ∧ (format = .snapshot → content.Perm text) ∧
        (Level.debug < options.level → u.err = t.err)) ∧
      (shell.files.resolve f = .ok place →
        format.render printers [] = .ok content ∧ u.err = shell.err) := by
  obtain ⟨options, format, fns, text, hprinted⟩ :=
    Printed.of_execute hargs hstream hhelp hrun
  -- the options are settled before the output is made, so both lines have the same ones
  have hconf : (configure { setting with printers } flags).run shell = (.ok options, shell) :=
    hprinted.configured
  by_cases hsame : shell.files.resolve f = .ok place
  · obtain ⟨blank, hblank⟩ := Format.exists_render_nil printers format
    have hempty := Files.read_create_self hcreate hsame
    have hrenders : Renders printers (simplifyOptions options flags) f (flags.value "format" "text")
        { shell with files } format ([], {}) blank shell.err :=
      ⟨run_optimize_empty hempty, hprinted.known, hblank⟩
    refine ⟨options, format, fns, text, blank, _, hprinted,
      execute_file hargs hstream hhelp hcreate hconf hrenders, rfl,
      fun p hp => Files.look_create_put hcreate hp blank, Files.read_create_put hcreate blank,
      fun h => absurd hsame h, fun _ => ⟨hblank, rfl⟩⟩
  · obtain ⟨counts, hopt⟩ := hprinted.optimized
    -- the line has read its fixture, so there is a place that the path of it leads to
    have hread : files.read f = shell.files.read f := by
      cases hplace : shell.files.resolve f with
      | error e =>
        rw [run_optimize, Files.read, hplace] at hopt
        cases hopt
      | ok q =>
        refine Files.read_create_of_ne hcreate hplace ?_
        rintro rfl
        exact hsame hplace
    obtain ⟨content, hcontent⟩ := Format.exists_render hprinted.rendered printers
    have hrenders : Renders printers (simplifyOptions options flags) f (flags.value "format" "text")
        { shell with files } format (fns, counts) content t.err :=
      ⟨(run_optimize_files hopt).2 files hread, hprinted.known, hcontent⟩
    refine ⟨options, format, fns, text, content, _, hprinted,
      execute_file hargs hstream hhelp hcreate hconf hrenders, rfl,
      fun p hp => Files.look_create_put hcreate hp content, Files.read_create_put hcreate content,
      fun _ => ⟨hcontent, fun hfixed => ?_, ?_, fun _ => rfl⟩, fun h => absurd h hsame⟩
    · exact Except.ok.inj (hcontent.symm.trans (hfixed.render_eq.trans hprinted.rendered))
    · rintro rfl
      exact Format.perm_of_render_snapshot hprinted.rendered hcontent

end

theorem readAll_fixture :
    Flag.readAll simplify.flags [] [] ["a.yaml"] = .ok ([], [Text.ofString "a.yaml"]) := by cbv

/-- A working directory with a fixture of three blocks, of which the first jumps to the last by way
of the second, and an old file. -/
def detourShell : Shell where
  files :=
    let head : Text := "functions:\n- name: f\n  blocks:\n"
    let first : Text := "  - label: e\n    ops:\n    - kind: jump\n      target: x\n"
    let second : Text := "  - label: x\n    ops:\n    - kind: jump\n      target: d\n"
    Files.ofList [("a.yaml", head ++ first ++ second ++ "  - label: d\n"), ("b.txt", "old")]

def detourFunc : Func where
  name := "f"
  entry := some 0
  blocks := [{ id := 1, ops := [0] }, { id := 2, ops := [1], parents := [some 0] },
    { id := 3, parents := [some 1] }]
  ops := [.jump (some 1), .jump (some 2)]

/-- The first block jumps to the last, and the second is eliminated. -/
def directFunc : Func where
  name := "f"
  entry := some 0
  blocks := [{ id := 1, ops := [0] }, { id := 2, ops := [1], dead := true, parents := [some 0] },
    { id := 3, parents := [some 0] }]
  ops := [.jump (some 2), .jump (some 2)]

def directText : Text :=
  "== f\nBlock#1\n    Jump\n        target: Block#2\n\nBlock#2\n    Parent: Block#1\n"

set_option maxRecDepth 2048 in
theorem renders_detour : Renders .plain {} "a.yaml" "text" detourShell .text
    ([directFunc], { funcs := 1, blocks := 3, eliminated := 1 }) directText {} := by
  have hload : loaded "a.yaml" (detourShell.files.read "a.yaml") =
      .ok ([detourFunc], { funcs := 1, blocks := 3 }) := by decide +kernel
  have hopt : (optimizeAll {} [detourFunc] { funcs := 1, blocks := 3 }).run detourShell =
      (.ok ([directFunc], { funcs := 1, blocks := 3, eliminated := 1 }),
        { detourShell with err := {} }) := by cbv
  have hshow : Format.text.render .plain [directFunc] = .ok directText := by cbv
  exact ⟨(run_optimize_of_loaded hload).trans hopt, by decide, hshow⟩

/-- The second run lists nothing of a document, which does not show in a text. -/
theorem detour_written_over : ∃ u,
    execute { printers := { Printers.plain with listing := fun _ => [] } }
      ["simplify", "-o", "b.txt", "a.yaml"] detourShell = (none, u) ∧
      u.out = {} ∧ u.err = {} ∧ u.files.read "b.txt" = .ok directText ∧
      u.files.look ["a.yaml"] = detourShell.files.look ["a.yaml"] := by
  have hcreate : detourShell.files.create "b.txt" =
      .ok (detourShell.files.put ["b.txt"] [], ["b.txt"]) := by decide +kernel
  have hother : detourShell.files.resolve "a.yaml" ≠ .ok ["b.txt"] := by decide
  have hrun : execute {} ["simplify", "a.yaml"] detourShell =
      (none, { detourShell with out := (detourShell.out.write directText).1, err := {} }) :=
    execute_stream readAll_fixture rfl rfl rfl renders_detour rfl
  obtain
    ⟨options, format, fns, text, content, u, hprinted, hexecute, hout, hlook, hread, hbeside, -⟩ :=
    output_file_of_stream readAll_fixture rfl rfl hcreate hrun
      { Printers.plain with listing := fun _ => [] }
  obtain rfl : Format.text = format := Option.some.inj hprinted.known
  obtain ⟨-, hsame, -, herr⟩ := hbeside hother
  have htext : directText = text := congrArg Sink.written hprinted.out
  have hlevel : Level.debug < options.level := by
    cases hprinted.configured
    decide
  exact ⟨u, hexecute, hout, herr hlevel, htext ▸ hsame trivial ▸ hread, hlook _ (by decide)⟩

/-- A working directory with one fixture, of a function with one block. -/
def loneShell : Shell where
  files := Files.ofList [("a.yaml", "functions:\n- name: f\n  blocks:\n  - label: e\n")]

def loneFunc : Func := { name := "f", entry := some 0, blocks := [{ id := 1 }] }

def loneText : Text := "== f\nBlock#1\n"

theorem renders_lone : Renders .plain {} "a.yaml" "text" loneShell .text
    ([loneFunc], { funcs := 1, blocks := 1 }) loneText {} := by
  have hload : loaded "a.yaml" (loneShell.files.read "a.yaml") =
      .ok ([loneFunc], { funcs := 1, blocks := 1 }) := by decide +kernel
  have hopt : (optimizeAll {} [loneFunc] { funcs := 1, blocks := 1 }).run loneShell =
      (.ok ([loneFunc], { funcs := 1, blocks := 1 }), { loneShell with err := {} }) := by cbv
  have hshow : Format.text.render .plain [loneFunc] = .ok loneText := by cbv
  exact ⟨(run_optimize_of_loaded hload).trans hopt, by decide, hshow⟩

/-- Simplified in place, the fixture is lost. -/
theorem lone_lost_in_place :
    execute {} ["simplify", "a.yaml"] loneShell =
      (none, { loneShell with out := { written := loneText } }) ∧
    execute {} ["simplify", "-o", "a.yaml", "a.yaml"] loneShell =
      (none, { files := Files.ofList [("a.yaml", [])] }) := by
  have hcreate : loneShell.files.create "a.yaml" =
      .ok (Files.ofList [("a.yaml", [])], ["a.yaml"]) := by decide
  have hblank : Renders .plain {} "a.yaml" "text"
      { loneShell with files := Files.ofList [("a.yaml", [])] } .text ([], {}) [] {} :=
    ⟨run_optimize_empty (by decide), by decide, rfl⟩
  exact ⟨execute_stream readAll_fixture rfl rfl rfl renders_lone rfl,
    execute_file readAll_fixture rfl rfl hcreate rfl hblank⟩

end Command

end FlowGraph
