import Telemetry.Proofs.Text
import Telemetry.Time.Text

/-!
# Spans as text

What is read as a span is said here without reading it: blanks, digits, the mark of a unit, blanks.
No mark holds a blank or a digit, so each text is taken apart in one way only, however many marks
begin alike. A span is printed as its count and the mark of its unit, which is one of the ways to
spell it; a week has a mark, but no unit of its own, and is printed in days.
-/

namespace Telemetry

/-! ## Marks -/

/-- The marks that may stand behind a count, and how many of which unit are meant. -/
def TimeUnit.marks : List (String × Nat × TimeUnit) :=
  [("ns", 1, nanoseconds), ("us", 1, microseconds), ("ms", 1, milliseconds), ("s", 1, seconds),
    ("m", 1, minutes), ("h", 1, hours), ("d", 1, days), ("w", 7, days)]

namespace TimeUnit

theorem mem_marks_iff {mark : String} {k : Nat} {u : TimeUnit} :
    (mark, k, u) ∈ marks ↔ mark = u.suffix ∧ k = 1 ∨ mark = "w" ∧ k = 7 ∧ u = days := by
  constructor
  · have hall : ∀ m ∈ marks,
        m.1 = m.2.2.suffix ∧ m.2.1 = 1 ∨ m.1 = "w" ∧ m.2.1 = 7 ∧ m.2.2 = days := by
      decide
    exact hall _
  · rintro (⟨rfl, rfl⟩ | ⟨rfl, rfl, rfl⟩)
    · cases u <;> decide
    · decide

theorem suffix_ne_week (u : TimeUnit) : u.suffix ≠ "w" := by
  cases u <;> decide

theorem ofSuffix?_suffix (u : TimeUnit) : ofSuffix? u.suffix = some u := by
  cases u <;> rfl

theorem suffix_of_ofSuffix? {mark : String} {u : TimeUnit} (h : ofSuffix? mark = some u) :
    u.suffix = mark := by
  simpa using List.find?_some h

/-- A mark is neither empty nor mixed up with what stands before or behind it. -/
theorem apart_of_mem_marks {mark : String} {k : Nat} {u : TimeUnit} (h : (mark, k, u) ∈ marks) :
    mark.toList ≠ [] ∧ ∀ c ∈ mark.toList, isBlank c = false ∧ c.isDigit = false := by
  have hall : ∀ m ∈ marks, m.1.toList ≠ [] ∧
      m.1.toList.all (fun c => ! isBlank c && ! c.isDigit) = true := by
    decide
  simpa using hall _ h

end TimeUnit

namespace Duration

/-! ## Spelling -/

/-- The text is a way to write the span. -/
inductive Spelled (d : Duration) : List Char → Prop
  | mk {before digits after : List Char} {mark : String} {k : Nat}
      (hbefore : ∀ c ∈ before, isBlank c = true) (hne : digits ≠ [])
      (hdigits : ∀ c ∈ digits, c.isDigit = true) (hmax : (digitsValue digits : Int) ≤ maxTicks)
      (hmark : (mark, k, d.unit) ∈ TimeUnit.marks)
      (hticks : d.ticks = min (digitsValue digits * k : Int) maxTicks)
      (hafter : ∀ c ∈ after, isBlank c = true) :
      Spelled d (before ++ (digits ++ (mark.toList ++ after)))

/-- A count that is too great stops at the greatest one. -/
theorem eq_ofTicks_iff {d : Duration} {n : Nat} {u : TimeUnit} :
    d = ofTicks n u ↔ d.unit = u ∧ d.ticks = min (n : Int) maxTicks := by
  have hclamp : max 0 (min (n : Int) maxTicks) = min (n : Int) maxTicks := by
    simp only [maxTicks]
    omega
  obtain ⟨ticks, unit, -, -⟩ := d
  simp only [ofTicks, mk.injEq, hclamp]
  exact and_comm

/-- What a count and a mark stand for. -/
theorem ofCount?_eq_some_iff {n : Nat} {mark : String} {d : Duration} :
    ofCount? n mark = some d ↔
      ∃ k : Nat, (mark, k, d.unit) ∈ TimeUnit.marks ∧ d.ticks = min (n * k : Int) maxTicks := by
  by_cases hweek : mark = "w"
  · subst hweek
    have hclamp : ofTicks (clampTicks (n * 7)) .days = ofTicks (n * 7 : Nat) .days := by
      simp only [ofTicks, mk.injEq, and_true, clampTicks, minTicks, maxTicks]
      omega
    rw [ofCount?, if_pos rfl, Option.some_inj, hclamp, eq_comm, eq_ofTicks_iff]
    constructor
    · rintro ⟨hunit, hticks⟩
      exact ⟨7, TimeUnit.mem_marks_iff.2 (.inr ⟨rfl, rfl, hunit⟩), by simpa using hticks⟩
    · rintro ⟨k, hmark, hticks⟩
      obtain ⟨hsuffix, -⟩ | ⟨-, rfl, hunit⟩ := TimeUnit.mem_marks_iff.1 hmark
      · exact absurd hsuffix.symm (TimeUnit.suffix_ne_week _)
      · exact ⟨hunit, by simpa using hticks⟩
  · rw [ofCount?, if_neg hweek, Option.map_eq_some_iff]
    constructor
    · rintro ⟨u, hu, hd⟩
      obtain ⟨hunit, hticks⟩ := eq_ofTicks_iff.1 hd.symm
      refine ⟨1, TimeUnit.mem_marks_iff.2 (.inl ⟨?_, rfl⟩), by simpa using hticks⟩
      rw [hunit, TimeUnit.suffix_of_ofSuffix? hu]
    · rintro ⟨k, hmark, hticks⟩
      obtain ⟨rfl, rfl⟩ | ⟨hmark, -⟩ := TimeUnit.mem_marks_iff.1 hmark
      · refine ⟨d.unit, TimeUnit.ofSuffix?_suffix _, (eq_ofTicks_iff.2 ⟨rfl, ?_⟩).symm⟩
        simpa using hticks
      · exact absurd hmark hweek

theorem Spelled.parse {d : Duration} {s : String} (h : Spelled d s.toList) : parse? s = some d := by
  generalize hs : s.toList = cs at h
  cases h with
  | @mk before digits after mark k hbefore hne hdigits hmax hmark hticks hafter =>
    obtain ⟨hmarkNe, hapart⟩ := TimeUnit.apart_of_mem_marks hmark
    have hdigit : ∀ c ∈ (digits ++ (mark.toList ++ after)).head?, isBlank c = false :=
      forall_head?_append hne fun c hc => isBlank_of_isDigit (hdigits c hc)
    have hletter : ∀ c ∈ (mark.toList ++ after).head?, c.isDigit = false :=
      forall_head?_append hmarkNe fun c hc => (hapart c hc).2
    have hunblank : ∀ c ∈ mark.toList, (! isBlank c) = true := by
      intro c hc
      rw [(hapart c hc).1]
      rfl
    have hblank : ∀ c ∈ after.head?, (! isBlank c) = false := by
      intro c hc
      rw [hafter c (List.mem_of_mem_head? hc)]
      rfl
    obtain ⟨-, hbody⟩ := takeWhile_append_of_head hbefore hdigit
    obtain ⟨hcount, hrest⟩ := takeWhile_append_of_head hdigits hletter
    obtain ⟨hword, hend⟩ := takeWhile_append_of_head hunblank hblank
    have hnonempty : digits.isEmpty = false := by simpa using hne
    have hfits : ¬ maxTicks < digitsValue digits := by omega
    simp only [parse?, hs, hbody, hcount, hrest, hword, hend]
    rw [if_neg (by simp [hnonempty, hfits]), if_pos (by simpa using hafter), String.ofList_toList]
    exact ofCount?_eq_some_iff.2 ⟨k, hmark, hticks⟩

theorem spelled_of_parse {d : Duration} {s : String} (h : parse? s = some d) :
    Spelled d s.toList := by
  obtain ⟨body, hbody⟩ : ∃ body, s.toList.dropWhile isBlank = body := ⟨_, rfl⟩
  obtain ⟨rest, hrest⟩ : ∃ rest, body.dropWhile Char.isDigit = rest := ⟨_, rfl⟩
  simp only [parse?, hbody, hrest] at h
  split at h
  · cases h
  rename_i hdigits
  split at h
  · rename_i hafter
    obtain ⟨k, hmark, hticks⟩ := ofCount?_eq_some_iff.1 h
    simp only [Bool.or_eq_true, List.isEmpty_iff, decide_eq_true_eq, not_or] at hdigits
    have hsplit : s.toList = s.toList.takeWhile isBlank ++ (body.takeWhile Char.isDigit ++
        ((String.ofList (rest.takeWhile (! isBlank ·))).toList ++
          rest.dropWhile (! isBlank ·))) := by
      rw [String.toList_ofList, List.takeWhile_append_dropWhile, ← hrest,
        List.takeWhile_append_dropWhile, ← hbody, List.takeWhile_append_dropWhile]
    rw [hsplit]
    refine .mk ?_ hdigits.1 ?_ (Int.not_lt.1 hdigits.2) hmark hticks ?_
    · intro c hc
      exact List.mem_takeWhile_imp hc
    · intro c hc
      exact List.mem_takeWhile_imp hc
    · intro c hc
      exact List.all_eq_true.1 hafter c hc
  · cases h

theorem parse?_eq_some_iff {d : Duration} {s : String} :
    parse? s = some d ↔ Spelled d s.toList :=
  ⟨spelled_of_parse, Spelled.parse⟩

/-! ## Printing -/

theorem toList_text (d : Duration) :
    d.text.toList = Nat.toDigits 10 d.ticks.toNat ++ d.unit.suffix.toList := by
  rw [text, String.toList_append, Int.toString_eq_repr, Int.repr_eq_if, if_pos d.nonneg,
    Nat.repr_eq_ofList_toDigits, String.toList_ofList]

/-- A printed span is spelled, also between blanks. -/
theorem spelled_text {before after : List Char} (d : Duration)
    (hbefore : ∀ c ∈ before, isBlank c = true) (hafter : ∀ c ∈ after, isBlank c = true) :
    Spelled d (before ++ (d.text.toList ++ after)) := by
  have hcount : (digitsValue (Nat.toDigits 10 d.ticks.toNat) : Int) = d.ticks := by
    rw [digitsValue_toDigits, Int.toNat_of_nonneg d.nonneg]
  rw [toList_text, List.append_assoc]
  refine .mk (k := 1) hbefore Nat.toDigits_ne_nil ?_ ?_ ?_ ?_ hafter
  · intro c hc
    exact Nat.isDigit_of_mem_toDigits (by decide) (by decide) hc
  · rw [hcount]
    exact d.le_max
  · exact TimeUnit.mem_marks_iff.2 (.inl ⟨rfl, rfl⟩)
  · have := d.le_max
    omega

theorem parse?_text (d : Duration) : parse? d.text = some d := by
  have hspelled : Spelled d ([] ++ (d.text.toList ++ [])) := spelled_text d (by simp) (by simp)
  rw [List.nil_append, List.append_nil] at hspelled
  exact hspelled.parse

/-- Printing a span and reading it is undone either way: what is printed is read back as it was,
also between blanks; the texts that are read are those that spell a span; and what was read from
such a text is printed in a way that is read as the same again. -/
theorem parse_printed :
    (∀ (d : Duration) (before after : List Char), (∀ c ∈ before, isBlank c = true) →
      (∀ c ∈ after, isBlank c = true) →
      parse? (String.ofList before ++ d.text ++ String.ofList after) = some d) ∧
    (∀ (s : String) (d : Duration), parse? s = some d ↔ Spelled d s.toList) ∧
    ∀ (s : String) (d : Duration), parse? s = some d → parse? d.text = some d := by
  refine ⟨?printed, fun s d => parse?_eq_some_iff, fun s d _ => parse?_text d⟩
  case printed =>
    intro d before after hbefore hafter
    apply Spelled.parse
    rw [String.toList_append, String.toList_append, String.toList_ofList, String.toList_ofList,
      List.append_assoc]
    exact spelled_text d hbefore hafter

/-- Leading zeros are read, weeks are turned into days, and too many of them into the greatest
number of days. -/
theorem parse_printed_weeks :
    Spelled (ofTicks 49 .days) "\t007w\n".toList ∧
      parse? (ofTicks 49 .days).text = some (ofTicks 49 .days) ∧
      parse? (ofTicks maxTicks .days).text = some (ofTicks maxTicks .days) ∧
      parse? (String.ofList [' ', '\r'] ++ (ofTicks 1 .milliseconds).text ++
        String.ofList ['\n']) = some (ofTicks 1 .milliseconds) := by
  have hweeks : parse? "\t007w\n" = some (ofTicks 49 .days) := by decide +kernel
  have hmany : parse? "9223372036854775807w" = some (ofTicks maxTicks .days) := by decide +kernel
  refine ⟨(parse_printed.2.1 _ _).1 hweeks, parse_printed.2.2 _ _ hweeks,
    parse_printed.2.2 _ _ hmany, ?_⟩
  exact parse_printed.1 _ _ _ (List.all_eq_true.1 rfl) (List.all_eq_true.1 rfl)

end Duration

end Telemetry
