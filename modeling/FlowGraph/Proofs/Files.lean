import Mathlib
import FlowGraph.Files

/-! What changes when a file is made or written. The directories on the way to a place are there
before a file can be made at it, so a new file makes no new directory: all other places look as they
did before, and every path that led somewhere still leads there. -/

namespace FlowGraph

namespace Files

variable {f g : Files} {p q here : Place} {content path : Text}

/-! ## Writing -/

theorem lookup_cons_of_ne {entries : List (Place × Text)} (h : q ≠ p) (content : Text) :
    List.lookup q ((p, content) :: entries) = entries.lookup q := by
  have hne : (q == p) = false := by simpa using h
  rw [List.lookup_cons, hne]

theorem lookup_replace (entries : List (Place × Text)) (p q : Place) (content : Text) :
    (entries.map fun e => if e.1 = p then (p, content) else e).lookup q =
      if q = p then (entries.lookup p).map fun _ => content else entries.lookup q := by
  induction entries with
  | nil => simp
  | cons e entries ih =>
    obtain ⟨r, old⟩ := e
    rw [List.map_cons]
    by_cases hq : q = r
    · subst hq
      by_cases hp : q = p
      · simp [hp]
      · simp [hp]
    · by_cases hr : r = p
      · subst hr
        rw [if_pos rfl, lookup_cons_of_ne hq, lookup_cons_of_ne hq, ih, if_neg hq, if_neg hq]
      · rw [if_neg hr, lookup_cons_of_ne hq, lookup_cons_of_ne hq, lookup_cons_of_ne (Ne.symm hr),
          ih]

theorem isSome_lookup (entries : List (Place × Text)) (p : Place) :
    (entries.lookup p).isSome = entries.any fun e => decide (e.1 = p) := by
  induction entries with
  | nil => rfl
  | cons e entries ih =>
    obtain ⟨r, content⟩ := e
    by_cases hr : p = r
    · simp [hr]
    · rw [lookup_cons_of_ne hr, ih, List.any_cons, decide_eq_false (Ne.symm hr), Bool.false_or]

theorem lookup_put (f : Files) (p q : Place) (content : Text) :
    (f.put p content).entries.lookup q =
      if q = p then some content else f.entries.lookup q := by
  have hsome := isSome_lookup f.entries p
  cases hany : f.entries.any fun e => decide (e.1 = p) with
  | true =>
    obtain ⟨old, hold⟩ := Option.isSome_iff_exists.mp (hsome.trans hany)
    simp only [put, hany, if_true, lookup_replace, hold, Option.map_some]
  | false =>
    have hnone : f.entries.lookup p = none := by
      rw [← Option.not_isSome_iff_eq_none, hsome, hany]
      simp
    simp only [put, hany, Bool.false_eq_true, if_false]
    rw [List.lookup_append]
    by_cases hq : q = p
    · simp [hq, hnone]
    · rw [lookup_cons_of_ne hq, if_neg hq]
      simp

theorem any_put (f : Files) (p : Place) (content : Text) (test : Place → Bool) :
    ((f.put p content).entries.any fun e => test e.1) =
      ((f.entries.any fun e => test e.1) || test p) := by
  cases hany : f.entries.any fun e => decide (e.1 = p) with
  | true =>
    obtain ⟨e, he, hep⟩ := List.any_eq_true.mp hany
    have hsame : ∀ e : Place × Text, (if e.1 = p then (p, content) else e).1 = e.1 := by
      intro e
      split
      next h => exact h.symm
      · rfl
    have htest : test p = true → (f.entries.any fun e => test e.1) = true := fun h =>
      List.any_eq_true.mpr ⟨e, he, of_decide_eq_true hep ▸ h⟩
    simp only [put, hany, if_true, List.any_map, Function.comp_def, hsame]
    cases hp : test p with
    | true => rw [htest hp, Bool.true_or]
    | false => rw [Bool.or_false]
  | false => simp [put, hany, List.any_append]

@[simp] theorem look_put_self (f : Files) (p : Place) (content : Text) :
    (f.put p content).look p = .file content := by
  simp [look, lookup_put]

/-- All directories on the way to a place are there. -/
def Accessible (f : Files) (p : Place) : Prop :=
  ∀ r, r <+: p → r ≠ p → r ≠ [] → f.look r = .folder

theorem look_put_of_ne (h : f.Accessible p) (hq : q ≠ p) (content : Text) :
    (f.put p content).look q = f.look q := by
  have hfolders : (f.put p content).folders = f.folders := rfl
  rw [look, look, lookup_put, if_neg hq, any_put, hfolders]
  by_cases hprefix : q <+: p
  · by_cases hnil : q = []
    · simp [hnil]
    · -- on the way to the new file there are directories only
      have hfolder := h q hprefix hq hnil
      rw [look] at hfolder
      split at hfolder
      · cases hfolder
      next hnone =>
        split at hfolder
        next htest => rw [if_pos htest, if_pos (by rw [← Bool.or_assoc, htest]; rfl)]
        · cases hfolder
  · rw [Bool.eq_false_iff.mpr (mt List.isPrefixOf_iff_prefix.mp hprefix), Bool.or_false]

theorem Accessible.put (h : f.Accessible p) (content : Text) : (f.put p content).Accessible p :=
  fun r hr hne hnil => (look_put_of_ne h hne content).trans (h r hr hne hnil)

/-! ## Paths -/

theorem Accessible.append (h : f.Accessible here) (hhere : f.look here = .folder) (part : Text) :
    f.Accessible (here ++ [part]) := by
  intro r hr hne hnil
  rcases List.prefix_concat_iff.mp hr with heq | hr
  · exact absurd heq hne
  · by_cases hrh : r = here
    · rw [hrh, hhere]
    · exact h r hr hrh hnil

theorem Accessible.parent (h : f.Accessible here) (hhere : f.look here = .folder) :
    f.Accessible (parent here) := by
  rw [Files.parent]
  split
  · exact h
  split
  · exact h.append hhere _
  · intro r hr hne hnil
    refine h r (hr.trans (List.dropLast_prefix here)) (fun heq => hne ?_) hnil
    exact hr.eq_of_length_le (by rw [heq, List.length_dropLast]; omega)

theorem accessible_of_follow {parts : List Text} : ∀ {here : Place}, f.Accessible here →
    f.follow here parts = .ok p → f.Accessible p := by
  induction parts with
  | nil =>
    intro here hhere h
    cases h
    exact hhere
  | cons part parts ih =>
    intro here hhere h
    rw [follow] at h
    split at h
    · cases h
    · cases h
    next hfolder =>
      split at h
      · exact ih hhere h
      split at h
      · exact ih (hhere.parent hfolder) h
      · exact ih (hhere.append hfolder part) h

theorem accessible_of_resolve (h : f.resolve path = .ok p) : f.Accessible p := by
  cases path with
  | nil => cases h
  | cons b rest =>
    -- a path starts one level deep at most
    refine accessible_of_follow (fun r hr hne hnil => absurd (hr.eq_of_length_le ?_) hne) h
    have hlength : 0 < r.length := List.length_pos_iff.mpr hnil
    split
    · exact hlength
    · exact Nat.zero_le _

/-- A path goes on to lead where it led, as long as no directory is lost. -/
theorem follow_of_folders (hfg : ∀ q, f.look q = .folder → g.look q = .folder)
    {parts : List Text} : ∀ {here : Place}, f.follow here parts = .ok p →
      g.follow here parts = .ok p := by
  induction parts with
  | nil => exact fun h => h
  | cons part parts ih =>
    intro here h
    rw [follow] at h ⊢
    split at h
    · cases h
    · cases h
    next hfolder =>
      rw [hfg here hfolder]
      split at h
      next hpart => rw [if_pos hpart]; exact ih h
      next hpart =>
        rw [if_neg hpart]
        split at h
        next hup => rw [if_pos hup]; exact ih h
        next hup => rw [if_neg hup]; exact ih h

theorem resolve_of_folders (hfg : ∀ q, f.look q = .folder → g.look q = .folder)
    (h : f.resolve path = .ok p) : g.resolve path = .ok p := by
  cases path with
  | nil => cases h
  | cons b rest => exact follow_of_folders hfg h

theorem create_eq_ok (h : f.create path = .ok (g, p)) :
    g = f.put p [] ∧ f.resolve path = .ok p ∧ f.look p ≠ .folder := by
  rw [create] at h
  split at h
  · cases h
  · cases h
  next q hq =>
    split at h
    · cases h
    next hfolder =>
      cases h
      exact ⟨rfl, hq, hfolder⟩

theorem read_of_resolve (h : f.resolve path = .ok p) (hlook : f.look p = .file content) :
    f.read path = .ok content := by
  simp only [read, h, hlook]

/-! ## New files -/

section

variable {other : Text} (h : f.create path = .ok (g, p))

include h

theorem look_create (hq : q ≠ p) : g.look q = f.look q := by
  obtain ⟨rfl, hpath, -⟩ := create_eq_ok h
  exact look_put_of_ne (accessible_of_resolve hpath) hq []

theorem look_create_put (hq : q ≠ p) (content : Text) : (g.put p content).look q = f.look q := by
  obtain ⟨rfl, hpath, -⟩ := create_eq_ok h
  have haccess := accessible_of_resolve hpath
  rw [look_put_of_ne (haccess.put []) hq, look_put_of_ne haccess hq]

theorem ne_of_folder (hq : f.look q = .folder) : q ≠ p := by
  rintro rfl
  exact (create_eq_ok h).2.2 hq

theorem resolve_create (hother : f.resolve other = .ok q) : g.resolve other = .ok q :=
  resolve_of_folders (fun _ hr => (look_create h (ne_of_folder h hr)).trans hr) hother

theorem read_create_put (content : Text) : (g.put p content).read path = .ok content := by
  refine read_of_resolve (resolve_of_folders (fun r hr => ?_) (create_eq_ok h).2.1)
    (look_put_self g p content)
  exact (look_create_put h (ne_of_folder h hr) content).trans hr

/-- A file that is made anew has lost what it had. -/
theorem read_create_self (hother : f.resolve other = .ok p) : g.read other = .ok [] := by
  refine read_of_resolve (resolve_create h hother) ?_
  rw [(create_eq_ok h).1]
  exact look_put_self f p []

theorem read_create_of_ne (hother : f.resolve other = .ok q) (hq : q ≠ p) :
    g.read other = f.read other := by
  simp only [read, hother, resolve_create h hother, look_create h hq]

end

end Files

end FlowGraph
