import Constituency.CommandLine.Run
import Constituency.Proofs.Loading

/-!
Transcripts line by line. The report of a transcript is what its sentences would give one at a time:
a line that is no sentence adds nothing, and the first line that is not valid text ends it.
-/
namespace Constituency

namespace Text

variable {α : Type} [DecidableEq α] {feed ret : α}

theorem mem_dropTrailing {x c : α} {s : List α} (h : c ∈ dropTrailing x s) : c ∈ s := by
  rw [dropTrailing] at h
  split at h
  · exact List.dropLast_subset s h
  · exact h

theorem forall_linesOfStretches {q : α → Prop} {ss : List (List α)} (h : ∀ s ∈ ss, ∀ c ∈ s, q c) :
    ∀ line ∈ linesOfStretches ret ss, ∀ c ∈ line, q c := by
  induction ss using linesOfStretches.induct with
  | case1 => simp [linesOfStretches]
  | case2 last hlast => simp [linesOfStretches, hlast]
  | case3 last hlast =>
    rw [linesOfStretches, if_neg hlast]
    exact h
  | case4 s next rest ih =>
    rw [linesOfStretches, List.forall_mem_cons]
    rw [List.forall_mem_cons] at h
    exact ⟨fun c hc => h.1 c (mem_dropTrailing hc), ih h.2⟩

/-- A line has no line feed in it. -/
theorem not_mem_line {s line : List α} (h : line ∈ linesWith feed ret s) : feed ∉ line := by
  have hstretch : ∀ stretch ∈ s.splitOnP (· = feed), ∀ c ∈ stretch, c ≠ feed := by
    intro stretch hs c hc
    simpa using (mem_splitOnP hs c hc).2
  intro hm
  exact forall_linesOfStretches hstretch line h feed hm rfl

/-- A line that is not empty is its own only line. -/
theorem linesWith_line {s line : List α} (h : line ∈ linesWith feed ret s) (hne : line ≠ []) :
    linesWith feed ret line = [line] := by
  have hone : line.splitOnP (· = feed) = [line] :=
    List.splitOnP_eq_singleton fun c hc => decide_eq_false fun heq => not_mem_line h (heq ▸ hc)
  rw [linesWith, hone, linesOfStretches, if_neg (by simpa using hne)]

end Text

namespace CommandLine

/-- The bytes are valid text. -/
def isText (line : Bytes) : Bool := (String.fromUTF8? ⟨line.toArray⟩).isSome

/-- The bytes are valid text that is not blank. -/
def isSentence (line : Bytes) : Bool :=
  match String.fromUTF8? ⟨line.toArray⟩ with
  | some text => text.toList.any fun c => !Text.isBlank c
  | none => false

/-- The sentences among some bytes: the lines before the first one that is not valid text, without
the blank ones. -/
def sentencesOf (bytes : Bytes) : List Bytes :=
  ((Text.byteLines bytes).takeWhile isText).filter isSentence

namespace Task

theorem transcript_of_not_text (t : Task) {line : Bytes} (h : isText line = false)
    (rest : List Bytes) :
    t.transcript (line :: rest) = ⟨"", "", false⟩ := by
  have hnone : String.fromUTF8? ⟨line.toArray⟩ = none := by simpa [isText] using h
  rw [transcript, hnone]

theorem transcript_of_blank (t : Task) {line : Bytes} (htext : isText line = true)
    (h : isSentence line = false) (rest : List Bytes) :
    t.transcript (line :: rest) = t.transcript rest := by
  obtain ⟨text, hsome⟩ := Option.isSome_iff_exists.mp htext
  have hblank : Text.words text.toList = [] := by
    rw [Text.words_eq_nil_iff]
    simpa [isSentence, hsome] using h
  simp [transcript, hsome, Text.wordsOf, hblank]

/-- A sentence adds what it would give alone. -/
theorem transcript_of_sentence (t : Task) {line : Bytes} (h : isSentence line = true)
    (rest : List Bytes) :
    (t.transcript (line :: rest)).report =
      (t.transcript [line]).report ++ (t.transcript rest).report ∧
      (t.transcript (line :: rest)).complete = (t.transcript rest).complete := by
  cases hsome : String.fromUTF8? ⟨line.toArray⟩ with
  | none => simp [isSentence, hsome] at h
  | some text =>
    have hwords : Text.words text.toList ≠ [] := by
      rw [ne_eq, Text.words_eq_nil_iff]
      simpa [isSentence, hsome] using h
    simp [transcript, hsome, Text.wordsOf, hwords]

theorem report_transcript (t : Task) (lines : List Bytes) :
    (t.transcript lines).report =
      String.join (((lines.takeWhile isText).filter isSentence).map fun line =>
        (t.transcript [line]).report) := by
  induction lines with
  | nil => rfl
  | cons line rest ih =>
    cases htext : isText line with
    | false => simp [t.transcript_of_not_text htext, htext]
    | true =>
      cases hsentence : isSentence line with
      | false => simp [t.transcript_of_blank htext hsentence, htext, hsentence, ih]
      | true => simp [(t.transcript_of_sentence hsentence rest).1, htext, hsentence, ih]

theorem complete_transcript (t : Task) (lines : List Bytes) :
    (t.transcript lines).complete = lines.all isText := by
  induction lines with
  | nil => rfl
  | cons line rest ih =>
    cases htext : isText line with
    | false => simp [t.transcript_of_not_text htext, htext]
    | true =>
      cases hsentence : isSentence line with
      | false => simp [t.transcript_of_blank htext hsentence, htext, ih]
      | true => simp [(t.transcript_of_sentence hsentence rest).2, htext, ih]

/-- A sentence alone gives its own block. -/
theorem report_sentence (t : Task) {line : Bytes} {text : String}
    (hsome : String.fromUTF8? ⟨line.toArray⟩ = some text) (h : isSentence line = true) :
    (t.transcript [line]).report = t.report (Text.wordsOf text) := by
  have hwords : Text.words text.toList ≠ [] := by
    rw [ne_eq, Text.words_eq_nil_iff]
    simpa [isSentence, hsome] using h
  simp [transcript, hsome, Text.wordsOf, hwords]

theorem ne_nil_of_isSentence {line : Bytes} (h : isSentence line = true) : line ≠ [] := by
  rintro rfl
  revert h
  decide

/-- A sentence is a line of its own. -/
theorem byteLines_sentence {bytes line : Bytes} (h : line ∈ sentencesOf bytes) :
    Text.byteLines line = [line] := by
  obtain ⟨hvalid, hsentence⟩ := List.mem_filter.mp h
  have hmem : line ∈ Text.byteLines bytes := List.takeWhile_subset isText hvalid
  exact Text.linesWith_line hmem (ne_nil_of_isSentence hsentence)

/-- The report on some bytes is that on each of their sentences, one after the other. -/
theorem report_byteLines (t : Task) (bytes : Bytes) :
    (t.transcript (Text.byteLines bytes)).report =
      String.join ((sentencesOf bytes).map fun line =>
        (t.transcript (Text.byteLines line)).report) := by
  rw [report_transcript, sentencesOf]
  congr 1
  apply List.map_congr_left
  intro line hline
  rw [byteLines_sentence hline]

end Task

end CommandLine

end Constituency
