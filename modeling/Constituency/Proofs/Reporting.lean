import Constituency.Proofs.Arguments
import Constituency.Proofs.Files
import Constituency.Proofs.Transcript

/-!
What a run reports. With a grammar that loads, outputs that can be written, and sentences that no
output overwrites, a run is its parts in order: it saves the conversion, empties the report, reads,
and delivers the transcript. So its report is the reports on its sentences, each of which could be
had alone.
-/
namespace Constituency.CommandLine

variable {d d' : Directory} {o : Options} {g : Grammar} {input bytes : Bytes} {path : String}

/-- The file holds the definition of this grammar. -/
def Directory.Defines (d : Directory) (path : String) (g : Grammar) : Prop :=
  ∃ bytes text, d.read path = .ok bytes ∧ String.fromUTF8? ⟨bytes.toArray⟩ = some text ∧
    Grammar.load text = .ok g

/-- The bytes to read sentences from: the input, or those of a file that the run does not write. -/
def Directory.Supplies (d : Directory) (o : Options) (input bytes : Bytes) : Prop :=
  match o.sentences with
  | none => bytes = input
  | some path => d.read path = .ok bytes ∧
      ∀ other, o.report = some other ∨ o.conversion = some other → ¬ d.SameFile path other

/-- A run with these options can read all it needs and write all it is asked to. -/
structure Directory.Serves (d : Directory) (o : Options) (g : Grammar) (input bytes : Bytes) :
    Prop where
  grammar : d.Defines o.grammar g
  conversion : ∀ path, o.conversion = some path → d.Writable path
  report : ∀ path, o.report = some path → d.Writable path
  sentences : d.Supplies o input bytes

/-- Writing an output leaves the sentences as they were. -/
theorem Directory.Supplies.after_write {written : Bytes} (h : d.Supplies o input bytes)
    (houtput : o.report = some path ∨ o.conversion = some path)
    (hwrite : d.write path written = .ok d') :
    d'.Supplies o input bytes := by
  unfold Supplies at h ⊢
  cases hsentences : o.sentences with
  | none =>
    rw [hsentences] at h
    exact h
  | some sentences =>
    rw [hsentences] at h
    obtain ⟨hread, hother⟩ := h
    refine ⟨read_write_other hread (hother path houtput) hwrite, ?_⟩
    intro other hwritten hsame
    exact hother other hwritten (hsame.before_write hread hwrite)

theorem Directory.Supplies.printing (h : d.Supplies o input bytes) :
    d.Supplies { o with report := none } input bytes := by
  unfold Supplies at h ⊢
  cases hsentences : o.sentences with
  | none =>
    rw [hsentences] at h
    exact h
  | some sentences =>
    rw [hsentences] at h
    refine ⟨h.1, fun other hwritten => h.2 other (.inr ?_)⟩
    simpa using hwritten

section Steps

variable {α β : Type} {w w' : World} {text : String}

theorem bind_run {x : StateM World α} {f : α → StateM World β} {a : α} (h : x.run w = (a, w')) :
    (x >>= f).run w = (f a).run w' := by
  rw [StateT.run_bind, h]
  rfl

theorem run_bind_ok {x : ExceptT Failure (StateM World) α}
    {f : α → ExceptT Failure (StateM World) β} {a : α} (h : x.run.run w = (.ok a, w')) :
    (x >>= f).run.run w = (f a).run.run w' := by
  rw [ExceptT.run_bind, bind_run h]

theorem run_adapt_ok {x : StateM World (Except Fault α)} {a : α} (h : x w = (.ok a, w')) :
    ((ExceptT.mk x).adapt Failure.file).run.run w = (.ok a, w') := by
  change (fun done : Except Fault α × World => (Except.mapError Failure.file done.1, done.2))
    (x w) = _
  rw [h]
  rfl

theorem run_read (h : w.files.read path = .ok bytes) :
    ((ExceptT.mk (World.host.read path)).adapt Failure.file).run.run w = (.ok bytes, w) := by
  refine run_adapt_ok ?_
  change (w.files.read path, w) = _
  rw [h]

theorem run_probe (h : w.files.read path = .ok bytes) :
    ((ExceptT.mk (World.host.probe path)).adapt Failure.file).run.run w = (.ok (), w) := by
  refine run_adapt_ok ?_
  change (w.files.probe path, w) = _
  rw [Directory.probe_of_read h]

theorem run_save (h : w.files.write path text.toUTF8.toList = .ok d) :
    (save World.host path text).run.run w = (.ok (), { w with files := d }) := by
  refine run_adapt_ok ?_
  change World.write path text.toUTF8.toList w = _
  rw [World.write, h]

theorem run_loadFile (h : w.files.Defines path g) :
    (loadFile World.host path).run.run w = (.ok g, w) := by
  obtain ⟨bytes, text, hread, htext, hload⟩ := h
  rw [loadFile, run_bind_ok (run_read hread)]
  simp only [htext, hload]
  rfl

/-- Once the grammar is there and the conversion is saved, what is left is to read and to
deliver. -/
theorem run_perform_start (h : w.files.Serves o g w.input bytes) :
    ∃ d, (perform World.host o).run.run w = (do
        let bytes ← sentenceBytes World.host o
        deliver World.host o ((o.task g).transcript (Text.byteLines bytes))).run.run
          { w with files := d } ∧
      d.Supplies o w.input bytes ∧ w.files.Grows d := by
  rw [perform, run_bind_ok (run_loadFile h.grammar)]
  cases hconversion : o.conversion with
  | none =>
    refine ⟨w.files, ?_, h.sentences, .refl w.files⟩
    cases hconverted : (o.task g).conversion <;> simp only [hconverted]
  | some path =>
    obtain ⟨d, hwrite⟩ :=
      (h.conversion path hconversion).exists_write g.toWeakNormal.grammar.render.toUTF8.toList
    refine ⟨d, ?_, h.sentences.after_write (.inr hconversion) hwrite,
      Directory.grows_of_write hwrite⟩
    have hsome : (o.task g).conversion = some g.toWeakNormal := by simp [Options.task, hconversion]
    simp only [hsome]
    exact run_bind_ok (run_save hwrite)

/-- The sentences are there to be read after the report has been emptied. -/
theorem run_sentenceBytes (h : w.files.Supplies o w.input bytes)
    (hreport : ∀ path, o.report = some path → w.files.Writable path) :
    ∃ d, (sentenceBytes World.host o).run.run w = (.ok bytes, { w with files := d }) ∧
      w.files.Grows d := by
  unfold sentenceBytes
  cases hpath : o.report with
  | none =>
    refine ⟨w.files, ?_, .refl w.files⟩
    cases hsentences : o.sentences with
    | none =>
      simp only [Directory.Supplies, hsentences] at h
      rw [h]
      rfl
    | some sentences =>
      simp only [Directory.Supplies, hsentences] at h
      exact (run_bind_ok (run_probe h.1)).trans (run_read h.1)
  | some path =>
    obtain ⟨d, hwrite⟩ := (hreport path hpath).exists_write "".toUTF8.toList
    have hkept := h.after_write (.inl hpath) hwrite
    refine ⟨d, ?_, Directory.grows_of_write hwrite⟩
    cases hsentences : o.sentences with
    | none =>
      simp only [Directory.Supplies, hsentences] at h
      rw [h]
      exact run_bind_ok (run_save hwrite)
    | some sentences =>
      simp only [Directory.Supplies, hsentences] at h hkept
      exact (run_bind_ok (run_probe h.1)).trans
        ((run_bind_ok (run_save hwrite)).trans (run_read hkept.1))

/-- What a run ends with once its transcript is delivered: an error if a line was not valid text. -/
def Transcript.outcome (t : Transcript) : Except Failure Unit :=
  if t.complete then .ok () else .error (.file .notText)

/-- The report goes to its file, or to the output if none is named. -/
theorem run_deliver (t : Transcript)
    (hreport : ∀ path, o.report = some path → w.files.Writable path) :
    ∃ w', (deliver World.host o t).run.run w = (t.outcome, w') ∧
      w'.stdout = w.stdout ++ (if o.report = none then t.report else "") ∧
      ∀ path, o.report = some path → w.files.Keeps path →
        w'.files.read path = .ok t.report.toUTF8.toList := by
  have hend (w' : World) : (if !t.complete then throw (.file .notText) else pure () :
      ExceptT Failure (StateM World) Unit).run.run w' = (t.outcome, w') := by
    rw [Transcript.outcome]
    cases t.complete <;> rfl
  unfold deliver
  cases hpath : o.report with
  | none =>
    refine ⟨{ w with stderr := w.stderr ++ t.charts, stdout := w.stdout ++ t.report }, ?_,
      by simp, by simp⟩
    exact hend _
  | some path =>
    obtain ⟨d, hwrite⟩ := (hreport path hpath).exists_write t.report.toUTF8.toList
    refine ⟨{ w with stderr := w.stderr ++ t.charts, files := d }, ?_, by simp, ?_⟩
    · exact (run_bind_ok (w := { w with stderr := w.stderr ++ t.charts }) (run_save hwrite)).trans
        (hend _)
    · rintro other heq hkeeps
      obtain rfl := Option.some.inj heq
      exact hkeeps.read_write hwrite

/-- A run leaves the files and the output as what it performed left them. -/
theorem World.run_of_perform {arguments : List String} {files : Directory}
    {done : Except Failure Unit} (hread : Options.read arguments = some o)
    (hperform : (perform World.host o).run.run ⟨files, input, "", ""⟩ = (done, w)) :
    (World.run files input arguments).1 = (if done.isOk then 0 else 1) ∧
      (World.run files input arguments).2.stdout = w.stdout ∧
      (World.run files input arguments).2.files = w.files := by
  have hrun (f : Except Failure Unit → StateM World Nat) :
      ((perform World.host o).run >>= f) ⟨files, input, "", ""⟩ = f done w := bind_run hperform
  rw [World.run, CommandLine.run, hread]
  simp only [hrun]
  cases done <;> exact ⟨rfl, rfl, rfl⟩

end Steps

/-- A run with all it needs delivers the transcript of its lines, and fails only if it is not
complete. -/
theorem run_of_serves {arguments : List String} {files : Directory}
    (hread : Options.read arguments = some o) (h : files.Serves o g input bytes) {t : Transcript}
    (ht : (o.task g).transcript (Text.byteLines bytes) = t) :
    (World.run files input arguments).1 = (if t.complete then 0 else 1) ∧
      (World.run files input arguments).2.stdout = (if o.report = none then t.report else "") ∧
      ∀ path, o.report = some path → files.Keeps path →
        (World.run files input arguments).2.files.read path = .ok t.report.toUTF8.toList := by
  obtain ⟨saved, hstart, hsupplies, hsaved⟩ := run_perform_start (w := ⟨files, input, "", ""⟩) h
  have hreport : ∀ path, o.report = some path → saved.Writable path := fun path hpath =>
    hsaved.writable path (h.report path hpath)
  obtain ⟨emptied, hbytes, hemptied⟩ :=
    run_sentenceBytes (w := ⟨saved, input, "", ""⟩) hsupplies hreport
  have hgrown : files.Grows emptied := hsaved.trans hemptied
  obtain ⟨w', hdeliver, hstdout, hfile⟩ :=
    run_deliver (w := ⟨emptied, input, "", ""⟩) t fun path hpath =>
    hgrown.writable path (h.report path hpath)
  have hperform : (perform World.host o).run.run ⟨files, input, "", ""⟩ = (t.outcome, w') := by
    rw [hstart, run_bind_ok hbytes, ht, hdeliver]
  have hkept : ∀ path, o.report = some path → files.Keeps path →
      w'.files.read path = .ok t.report.toUTF8.toList := fun path hpath hkeeps =>
    hfile path hpath (hgrown.keeps path hkeeps)
  obtain ⟨hcode, hout, hfiles⟩ := World.run_of_perform hread hperform
  have hok : t.outcome.isOk = t.complete := by
    rw [Transcript.outcome]
    cases t.complete <;> rfl
  rw [hcode, hout, hfiles, hok]
  exact ⟨rfl, by simpa using hstdout, hkept⟩

/-- The report of a run is the reports that its sentences would have in runs of their own, each of
them the block of that sentence, and the run fails exactly if a line is not valid text. It makes no
difference to the report where it goes. -/
theorem report_by_sentence {arguments : List String} {files : Directory}
    (hread : Options.read arguments = some o) (h : files.Serves o g input bytes) :
    (∃ alone, Options.read alone = some { o with sentences := none, report := none }) ∧
    ∀ alone, Options.read alone = some { o with sentences := none, report := none } →
      let report :=
        String.join ((sentencesOf bytes).map fun line => (World.run files line alone).2.stdout)
      (World.run files input arguments).2.stdout = (if o.report = none then report else "") ∧
      (∀ path, o.report = some path → files.Keeps path →
        (World.run files input arguments).2.files.read path = .ok report.toUTF8.toList) ∧
      (∀ printing, Options.read printing = some { o with report := none } →
        (World.run files input printing).2.stdout = report) ∧
      (∀ line ∈ sentencesOf bytes, ∀ text, String.fromUTF8? ⟨line.toArray⟩ = some text →
        (World.run files line alone).2.stdout = (o.task g).report (Text.wordsOf text)) ∧
      (World.run files input arguments).1 =
        (if (Text.byteLines bytes).all isText then 0 else 1) := by
  have hnamed := Options.named_of_read hread
  refine ⟨⟨_, Options.read_arguments ⟨hnamed.grammar, by simp, by simp, hnamed.conversion⟩⟩, ?_⟩
  intro alone halone report
  have hone (line : Bytes) : (World.run files line alone).2.stdout =
      ((o.task g).transcript (Text.byteLines line)).report := by
    have hserves : files.Serves { o with sentences := none, report := none } g line line :=
      ⟨h.grammar, h.conversion, by simp, rfl⟩
    exact (run_of_serves halone hserves rfl).2.1
  have hreport : ((o.task g).transcript (Text.byteLines bytes)).report = report := by
    rw [Task.report_byteLines]
    simp only [report, hone]
  have hprinting : files.Serves { o with report := none } g input bytes :=
    ⟨h.grammar, h.conversion, by simp, h.sentences.printing⟩
  obtain ⟨hcode, hstdout, hfile⟩ := run_of_serves hread h rfl
  rw [Task.complete_transcript] at hcode
  rw [hreport] at hstdout hfile
  refine ⟨hstdout, hfile, ?_, ?_, hcode⟩
  · intro printing hprint
    exact (run_of_serves hprint hprinting rfl).2.1.trans hreport
  · intro line hline text htext
    rw [hone, Task.byteLines_sentence hline]
    exact Task.report_sentence (o.task g) htext (List.mem_filter.mp hline).2

/-- Two sentences are reported, the blank line between them is not, and a byte that is no text ends
the run. -/
theorem report_by_sentence_spoiled :
    let sentences : Bytes := "a a\n \r\nb\r\n".toUTF8.toList ++ 255 :: "\na\n".toUTF8.toList
    let text := "S -> \"a\" S | \"a\""
    let files : Directory := [("g.cfg", text.toUTF8.toList), ("in.txt", sentences)]
    let o : Options :=
      ⟨"g.cfg", some "in.txt", some "out.txt", some "weak.cfg", false, false, true, false⟩
    let g := Grammar.ofProductions "S" [⟨"S", ["\"a\"", "S"]⟩, ⟨"S", ["\"a\""]⟩]
    let arguments := ["--cnf-out=weak.cfg", "-ro", "out.txt", "g.cfg", "in.txt"]
    let alone := ["--cnf-out=weak.cfg", "-r", "g.cfg"]
    let first :=
      "Parsing sentence: a a\nThe sentence, \"a a\", is accepted by the given grammar!\n\n"
    let second :=
      "Parsing sentence: b\nThe sentence, \"b\", is not accepted by the given grammar since the " ++
      "token, \"b\", is not part of the lexicon!\n\n"
    Options.read arguments = some o ∧ files.Serves o g [] sentences ∧
      (World.run files "a a".toUTF8.toList alone).2.stdout = first ∧
      (World.run files "b".toUTF8.toList alone).2.stdout = second ∧
      (World.run files [] arguments).1 = 1 ∧ (World.run files [] arguments).2.stdout = "" ∧
      (World.run files [] arguments).2.files.read "out.txt" = .ok (first ++ second).toUTF8.toList ∧
      (World.run files [] (alone ++ ["in.txt"])).2.stdout = first ++ second := by
  intro sentences text files o g arguments alone first second
  have hread : Options.read arguments = some o := by decide +kernel
  have hkeeps : files.Keeps "out.txt" :=
    ⟨files ++ [("out.txt", [])], by decide +kernel, by decide +kernel⟩
  have hapart (other : String) (hnew : files.find other = .error .notFound) :
      ¬ files.SameFile "in.txt" other := by
    rintro ⟨name, -, hfind⟩
    rw [hnew] at hfind
    cases hfind
  have hserves : files.Serves o g [] sentences := by
    refine ⟨⟨text.toUTF8.toList, text, ?_, ?_, ?_⟩, ?_, ?_, ?_, ?_⟩
    · decide +kernel
    · decide +kernel
    · decide +kernel
    · rintro path ⟨⟩
      exact ⟨files ++ [("weak.cfg", [])], by decide +kernel⟩
    · rintro path ⟨⟩
      exact hkeeps.imp fun _ => And.left
    · decide +kernel
    · rintro other (⟨⟨⟩⟩ | ⟨⟨⟩⟩)
      · exact hapart "out.txt" (by decide +kernel)
      · exact hapart "weak.cfg" (by decide +kernel)
  have hsentences : sentencesOf sentences = ["a a".toUTF8.toList, "b".toUTF8.toList] := by
    decide +kernel
  have htext : (Text.byteLines sentences).all isText = false := by decide +kernel
  obtain ⟨hstdout, hfile, hprinted, hblock, hcode⟩ :=
    (report_by_sentence hread hserves).2 alone (by decide +kernel)
  rw [hsentences] at hstdout hfile hprinted hblock
  rw [htext] at hcode
  have hfirst : (World.run files "a a".toUTF8.toList alone).2.stdout = first := by
    rw [hblock _ (by simp) "a a" (by decide +kernel)]
    decide +kernel
  have hsecond : (World.run files "b".toUTF8.toList alone).2.stdout = second := by
    rw [hblock _ (by simp) "b" (by decide +kernel)]
    decide +kernel
  have hreport : String.join (["a a".toUTF8.toList, "b".toUTF8.toList].map fun line =>
      (World.run files line alone).2.stdout) = first ++ second := by
    rw [List.map_cons, List.map_cons, hfirst, hsecond]
    rfl
  rw [hreport] at hfile hprinted
  exact ⟨hread, hserves, hfirst, hsecond, hcode, hstdout, hfile "out.txt" rfl hkeeps,
    hprinted _ (by decide +kernel)⟩

end Constituency.CommandLine
