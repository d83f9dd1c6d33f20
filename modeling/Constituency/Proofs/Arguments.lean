import Mathlib.Data.List.Basic
import Constituency.CommandLine.Options

/-!
Options written as arguments. Whatever arguments can ask for, they can ask for in one plain form:
long options first, each with its value behind an equals sign, then a double dash and the file
names.
-/
namespace Constituency.CommandLine

/-- The long option that sets a flag. -/
def Flag.argument : Flag → String
  | .convert => "--cnf"
  | .raw => "--raw"
  | .recognize => "--recognize"
  | .chart => "--chart"

/-- The long option that names a file to write. -/
def Target.argument (target : Target) (path : String) : String :=
  match target with
  | .report => "--output=" ++ path
  | .conversion => "--cnf-out=" ++ path

theorem Flag.read_argument (flag : Flag) :
    Argument.read flag.argument = .settings [.flag flag] := by
  cases flag <;> decide +kernel

theorem Target.read_argument (target : Target) (path : String) :
    Argument.read (target.argument path) = .settings [.target target path] := by
  cases target <;>
    simp [argument, Argument.read, Argument.long, Argument.longTarget?, String.ofList_toList]

namespace Options

def flagList (o : Options) : List Flag :=
  (if o.convert then [.convert] else []) ++ (if o.raw then [.raw] else []) ++
    (if o.recognize then [.recognize] else []) ++ if o.chart then [.chart] else []

/-- These options as arguments. -/
def arguments (o : Options) : List String :=
  o.flagList.map Flag.argument ++ o.report.toList.map (Target.argument .report) ++
    o.conversion.toList.map (Target.argument .conversion) ++ "--" :: o.grammar :: o.sentences.toList

/-- What these options ask for, in the order of their arguments. -/
def settingList (o : Options) : List Setting :=
  o.flagList.map .flag ++ o.report.toList.map (.target .report) ++
    o.conversion.toList.map (.target .conversion) ++ (o.grammar :: o.sentences.toList).map .input

/-- No file name is empty. -/
structure Named (o : Options) : Prop where
  grammar : o.grammar ≠ ""
  sentences : o.sentences ≠ some ""
  report : o.report ≠ some ""
  conversion : o.conversion ≠ some ""

/-- Arguments that each say what they ask for put it before what the rest asks for. -/
theorem settings_map_append {α : Type} {f : α → String} {g : α → Setting}
    (h : ∀ x, Argument.read (f x) = .settings [g x]) (xs : List α) (rest : List String) :
    settings (xs.map f ++ rest) = (settings rest).map (xs.map g ++ ·) := by
  induction xs with
  | nil => simp
  | cons x xs ih =>
    rw [List.map_cons, List.cons_append, settings, h]
    simp only [ih, Option.map_map]
    rfl

theorem settings_arguments (o : Options) : settings o.arguments = some o.settingList := by
  have hend : settings ("--" :: o.grammar :: o.sentences.toList) =
      some ((o.grammar :: o.sentences.toList).map .input) := by
    have hread : Argument.read "--" = .endOfOptions := by decide
    rw [settings, hread]
  rw [arguments, List.append_assoc, List.append_assoc, settings_map_append Flag.read_argument,
    settings_map_append (Target.read_argument .report),
    settings_map_append (Target.read_argument .conversion), hend]
  simp [settingList]

theorem single_toList {α : Type} (x : Option α) : single x.toList = some x := by
  cases x <;> rfl

theorem nodup_flagList (o : Options) : o.flagList.Nodup := by
  rw [flagList]
  cases o.convert <;> cases o.raw <;> cases o.recognize <;> cases o.chart <;> decide

theorem contains_flagList (o : Options) : o.flagList.contains .convert = o.convert ∧
    o.flagList.contains .raw = o.raw ∧ o.flagList.contains .recognize = o.recognize ∧
    o.flagList.contains .chart = o.chart := by
  rw [flagList]
  cases o.convert <;> cases o.raw <;> cases o.recognize <;> cases o.chart <;> decide

theorem flags_settingList (o : Options) : flags o.settingList = o.flagList := by
  simp [flags, settingList]

theorem targets_settingList (o : Options) :
    targets o.settingList .report = o.report.toList ∧
      targets o.settingList .conversion = o.conversion.toList := by
  constructor <;> simp [targets, settingList]

theorem inputs_settingList (o : Options) :
    inputs o.settingList = o.grammar :: o.sentences.toList := by
  simp [inputs, settingList]

/-- Options whose file names are not empty are what their arguments ask for. -/
theorem read_arguments {o : Options} (h : o.Named) : read o.arguments = some o := by
  have hvalid : o.flagList.Nodup ∧ o.grammar ≠ "" ∧ o.sentences ≠ some "" ∧ o.report ≠ some "" ∧
      o.conversion ≠ some "" := ⟨o.nodup_flagList, h.1, h.2, h.3, h.4⟩
  obtain ⟨hconvert, hraw, hrecognize, hchart⟩ := o.contains_flagList
  obtain ⟨hreport, hconversion⟩ := o.targets_settingList
  rw [read, settings_arguments, Option.bind_some, ofSettings]
  simp only [flags_settingList, hreport, hconversion, inputs_settingList, single_toList,
    Option.bind_eq_bind, Option.bind_some, if_pos hvalid, hconvert, hraw, hrecognize, hchart]

/-- Arguments cannot ask for an empty file name. -/
theorem named_of_read {arguments : List String} {o : Options} (h : read arguments = some o) :
    o.Named := by
  obtain ⟨ss, -, h⟩ := Option.bind_eq_some_iff.mp h
  rw [ofSettings] at h
  simp only [Option.bind_eq_bind, Option.bind_eq_some_iff] at h
  obtain ⟨report, -, conversion, -, h⟩ := h
  split at h
  · cases h
  simp only [Option.bind_some, Option.bind_eq_some_iff] at h
  obtain ⟨sentences, -, h⟩ := h
  split at h
  · next hvalid =>
    obtain rfl := Option.some.inj h
    exact ⟨hvalid.2.1, hvalid.2.2.1, hvalid.2.2.2.1, hvalid.2.2.2.2⟩
  · cases h

end Options

end Constituency.CommandLine
