import Telemetry.Proofs.Points.Run
import Telemetry.Proofs.Prompt

/-!
# Primary points are prompt

The rows of a bucket, and those behind it that tell how it goes on, are read before its point is
handed out. Each of these readings comes to its end within the rows at hand, whatever follows them,
or is ended by an error behind them. Rows that were read ahead are taken first, so a reading may
need nothing from the input at all.

A count may overflow on the way, and then the run is abandoned. So each reading is taken together
with whether that happens: `Counted` says that it is settled by the rows at hand as well.
-/

namespace Telemetry

namespace Feed

variable {α ρ ρ' : Type} {rows : List (Row α)}

/-- A count overflows whatever follows, or it does not and the reading is settled. -/
def Counted (Settled : (Feed α → ρ) → Prop) (answer : Feed α → Bool × ρ) : Prop :=
  (∀ input, (answer input).1 = true) ∨
    (∀ input, (answer input).1 = false) ∧ Settled fun input => (answer input).2

/-- No count overflows before the error is met. -/
def CountedFailed (Failed : QueryError → ρ → Prop) (e : QueryError) (result : Bool × ρ) : Prop :=
  result.1 = false ∧ Failed e result.2

/-- A reading on which a count overflows within the rows at hand. -/
theorem Reads.of_overflow {read : Feed α → Bool × ρ} {Settled : (Feed α → ρ) → Prop}
    {Failed : QueryError → ρ → Prop} (h : ∀ tail, (read (ofRows rows ++ tail)).1 = true) :
    Reads read rows (Counted Settled) (CountedFailed Failed) :=
  .inl ⟨fun tail => read (ofRows rows ++ tail), [], .inl h, fun _ => rfl⟩

end Feed

namespace Resampling

/-! ## Up to the end of the bucket -/

/-- All tracks have taken what they need, and the input is left alone. -/
def Settled (answer : Feed Value → List Track × Option QueryError × List (Row Value) × Feed Value) :
    Prop :=
  ∃ tracks ahead, ∀ input, answer input = (tracks, none, ahead, input)

/-- The tracks were stopped by an error. -/
def Stopped (e : QueryError)
    (result : List Track × Option QueryError × List (Row Value) × Feed Value) : Prop :=
  ∃ tracks ahead input, result = (tracks, some e, ahead, input)

theorem absorbInput_reads (floor ceiling : Timestamp) (tracks : List Track)
    (rows : List (Row Value)) :
    Feed.Reads (fun input => (absorbOverflows floor ceiling tracks input,
      absorbInput floor ceiling tracks input)) rows (Feed.Counted Settled)
      (Feed.CountedFailed Stopped) := by
  induction rows generalizing tracks with
  | nil => exact .inr fun e later => ⟨rfl, tracks, [], later, rfl⟩
  | cons row rest ih =>
    by_cases hle : row.timestamp ≤ ceiling
    · by_cases hover : tracks.any (·.advanceOverflows floor row) = true
      · exact .of_overflow fun tail => by simp [Feed.ofRows_cons, absorbOverflows, hle, hover]
      · refine (ih (advanceAll tracks floor row)).of_eq fun tail => ?_
        simp [Feed.ofRows_cons, absorbOverflows, absorbInput, hle, hover]
    · refine .inl ⟨fun input => (false, tracks, none, [row], input), rest,
        .inr ⟨fun input => rfl, tracks, [row], fun input => rfl⟩, fun tail => ?_⟩
      simp [Feed.ofRows_cons, absorbOverflows, absorbInput, hle]

/-- The induction runs over the rows that were read ahead. -/
theorem absorb_reads (r : Resampling) (floor ceiling : Timestamp) (rows : List (Row Value)) :
    Feed.Reads (fun input => (absorbOverflows floor ceiling r.tracks (.ofRows r.lookahead ++ input),
      { r with input }.absorb floor ceiling)) rows
      (Feed.Counted fun answer => ∃ tracks ahead, ∀ input,
        answer input = (none, { r with tracks, lookahead := ahead, input }))
      (Feed.CountedFailed fun e result => ∃ r', result = (some e, r')) := by
  induction hahead : r.lookahead generalizing r with
  | nil =>
    let load (result : List Track × Option QueryError × List (Row Value) × Feed Value) :
        Option QueryError × Resampling :=
      (result.2.1, { r with
        tracks := result.1
        lookahead := result.2.2.1
        input := result.2.2.2 })
    have hinput : Feed.Reads (fun input => (absorbOverflows floor ceiling r.tracks input,
        load (absorbInput floor ceiling r.tracks input))) rows
        (Feed.Counted fun answer => ∃ tracks ahead, ∀ input,
          answer input = (none, { r with tracks, lookahead := ahead, input }))
        (Feed.CountedFailed fun e result => ∃ r', result = (some e, r')) := by
      refine (absorbInput_reads floor ceiling r.tracks rows).map
        (fun result => (result.1, load result.2)) ?_ ?_
      · rintro answer (hover | ⟨hnone, tracks, ahead, heq⟩)
        · exact .inl hover
        · exact .inr ⟨hnone, tracks, ahead, fun input => by simp only [heq, load]⟩
      · rintro e result ⟨hnone, tracks, ahead, input, heq⟩
        exact ⟨hnone, _, by simp only [heq, load]; rfl⟩
    refine hinput.of_eq fun tail => ?_
    simp only [Feed.ofRows, List.map_nil, List.nil_append, absorb, absorbAhead, load]
  | cons row rest ih =>
    by_cases hle : row.timestamp ≤ ceiling
    · by_cases hover : r.tracks.any (·.advanceOverflows floor row) = true
      · exact .of_overflow fun tail => by simp [Feed.ofRows_cons, absorbOverflows, hle, hover]
      · refine (ih { r with tracks := advanceAll r.tracks floor row, lookahead := rest } rfl).of_eq
          fun tail => Prod.ext ?_ ?_
        · simp [Feed.ofRows_cons, absorbOverflows, hle, hover]
        · exact absorb_of_le (r := { r with
            lookahead := row :: rest
            input := .ofRows rows ++ tail }) rfl hle
    · refine .inl ⟨fun input => (false, none, { r with input }), rows,
        .inr ⟨fun input => rfl, r.tracks, r.lookahead, fun input => rfl⟩, fun tail => ?_⟩
      simp [Feed.ofRows_cons, absorbOverflows, absorb, hahead, absorbAhead, hle]

/-! ## Behind the end of the bucket -/

/-- It was found what follows the last sample of a metric, and the input is left alone. -/
def Found (answer : Feed Value → Except QueryError CarryOver × List (Row Value) × Feed Value) :
    Prop :=
  ∃ found ahead, ∀ input, answer input = (.ok found, ahead, input)

/-- The search was stopped by an error. -/
def Lost (e : QueryError) (result : Except QueryError CarryOver × List (Row Value) × Feed Value) :
    Prop :=
  ∃ ahead input, result = (.error e, ahead, input)

/-- Rows that were read before do not change how a search ends. -/
theorem reads_ahead
    {read : Feed Value → Except QueryError CarryOver × List (Row Value) × Feed Value}
    {rows : List (Row Value)} (h : Feed.Reads read rows Found Lost) (before : List (Row Value)) :
    Feed.Reads (fun input => ((read input).1, before ++ (read input).2.1, (read input).2.2)) rows
      Found Lost := by
  refine h.map (fun result => (result.1, before ++ result.2.1, result.2.2)) ?_ ?_
  · rintro answer ⟨found, ahead, heq⟩
    exact ⟨found, before ++ ahead, fun input => by simp only [heq]⟩
  · rintro e _ ⟨ahead, input, rfl⟩
    exact ⟨before ++ ahead, input, rfl⟩

theorem seekInput_reads (metric : String) (horizon : Timestamp) (rows : List (Row Value)) :
    Feed.Reads (seekInput metric horizon) rows Found Lost := by
  induction rows with
  | nil => exact .inr fun e later => ⟨[], later, rfl⟩
  | cons row rest ih =>
    cases hjudge : judge? metric horizon row with
    | some found =>
      refine .inl ⟨_, rest, ⟨found, [row], fun input => rfl⟩, fun tail => ?_⟩
      simp only [Feed.ofRows_cons, List.cons_append, seekInput, hjudge]
    | none =>
      refine (reads_ahead ih [row]).of_eq fun tail => ?_
      simp only [Feed.ofRows_cons, List.cons_append, seekInput, hjudge, List.nil_append]

theorem seek_reads (metric : String) (horizon : Timestamp) (ahead rows : List (Row Value)) :
    Feed.Reads (seek metric horizon ahead) rows Found Lost := by
  unfold seek
  cases ahead.findSome? (judge? metric horizon) with
  | some found => exact .inl ⟨_, rows, ⟨found, ahead, fun input => rfl⟩, fun tail => rfl⟩
  | none => exact reads_ahead (seekInput_reads metric horizon rows) ahead

/-- The induction runs over the tracks; the first of them that reads behind the rows meets the
error. -/
theorem complete_reads (floor ceiling : Timestamp) (tracks : List Track)
    (ahead rows : List (Row Value)) :
    Feed.Reads (fun input => (completeOverflows floor ceiling tracks ahead input,
      complete floor ceiling tracks ahead input)) rows (Feed.Counted Settled)
      (Feed.CountedFailed Stopped) := by
  induction tracks generalizing ahead rows with
  | nil =>
    exact .inl ⟨fun input => (false, [], none, ahead, input), rows,
      .inr ⟨fun input => rfl, [], ahead, fun input => rfl⟩, fun tail => rfl⟩
  | cons t rest ih =>
    have hothers (t : Track) (ahead rows : List (Row Value)) :
        Feed.Reads (fun input => (completeOverflows floor ceiling rest ahead input,
          t :: (complete floor ceiling rest ahead input).1,
          (complete floor ceiling rest ahead input).2)) rows (Feed.Counted Settled)
          (Feed.CountedFailed Stopped) := by
      refine (ih ahead rows).map (fun result => (result.1, t :: result.2.1, result.2.2)) ?_ ?_
      · rintro answer (hover | ⟨hnone, tracks, ahead', heq⟩)
        · exact .inl hover
        · exact .inr ⟨hnone, t :: tracks, ahead', fun input => by simp only [heq]⟩
      · rintro e result ⟨hnone, tracks, ahead', input, heq⟩
        exact ⟨hnone, t :: tracks, ahead', input, by simp only [heq]⟩
    cases hlast : t.coverage.last with
    | none =>
      refine (hothers t ahead rows).of_eq fun tail => ?_
      simp only [completeOverflows, complete, hlast]
    | some last =>
      by_cases hle : ceiling ≤ last
      · refine (hothers t ahead rows).of_eq fun tail => ?_
        simp only [completeOverflows, complete, hlast, if_pos hle]
      by_cases hspan : overflows (ceiling.millisSince (last.later floor)) = true
      · exact .of_overflow fun tail => by simp [completeOverflows, hlast, hle, hspan]
      rcases seek_reads t.datasource.source (last + t.datasource.heartbeat) ahead rows with
        ⟨answer, left, ⟨found, ahead', hanswer⟩, hseek⟩ | herror
      · by_cases hcarry : carryOverflows t floor ceiling last found = true
        · refine .of_overflow fun tail => ?_
          simp [completeOverflows, hlast, hle, hseek, hanswer, hcarry]
        · refine (hothers (carry t floor ceiling last found) ahead' left).of_eq fun tail => ?_
          simp [completeOverflows, complete, hlast, hle, hspan, hseek, hanswer, hcarry]
      · refine .inr fun e later => ?_
        obtain ⟨ahead', input, hlost⟩ := herror e later
        refine ⟨?_, t :: rest, ahead', input, ?_⟩
        · simp [completeOverflows, hlast, hle, hspan, hlost]
        · simp [complete, hlast, hle, hlost]

/-! ## Points -/

section Request

variable {r s : Resampling} {closed : Except QueryError Closing}

theorem isSome_attempt? (r : Resampling) : r.attempt?.isSome = r.points.next?.isSome := by
  simp only [attempt?, next?, close?, Option.isSome_map]

theorem attempt?_of_overflow (h : r.close? = some (closed, s))
    (hover : r.requestOverflows = true) :
    r.attempt? = some (.error (.abandoned .overflow), s) := by
  simp only [attempt?, next?_of_close? h, Option.map_some, if_pos hover]

theorem attempt?_of_close? (h : r.close? = some (closed, s))
    (hover : r.requestOverflows = false) :
    r.attempt? = some (closed.map (·.point r.resource), s) := by
  simp only [attempt?, next?_of_close? h, Option.map_some, hover, Bool.false_eq_true, if_false]

end Request

/-- The steps of a request are reached one after the other, each only if none before it has failed
or overflowed. -/
theorem request_reads (r : Resampling) (rows : List (Row Value)) {ceiling : Timestamp}
    {points : Lattice} (hp : r.points.next? = some (ceiling, points)) :
    Feed.Reads (fun input => (requestOverflows { r with input }, close? { r with input })) rows
      (Feed.Counted fun answer => ∃ (cl : Closing) (s : Resampling), ∀ input,
        answer input = some (.ok cl, { s with input }))
      (Feed.CountedFailed fun e answer => ∃ s, answer = some (.error e, s)) := by
  rcases absorb_reads { r with points } (ceiling - points.interval) ceiling rows with
    ⟨answer, left, hover | ⟨hnone, tracks, ahead, hanswer⟩, hearly⟩ | herror
  · refine .of_overflow fun tail => ?_
    have habsorb := (Prod.ext_iff.1 (hearly tail)).1.trans (hover _)
    dsimp only at habsorb
    simp only [requestOverflows, hp, habsorb, Bool.true_or]
  · have hcounts (tail : Feed Value) := (Prod.ext_iff.1 (hearly tail)).1.trans (hnone _)
    have habsorb (tail : Feed Value) := (Prod.ext_iff.1 (hearly tail)).2.trans (hanswer _)
    dsimp only at hcounts habsorb
    rcases complete_reads (ceiling - points.interval) ceiling tracks ahead left with
      ⟨answer', left', hover | ⟨hnone', tracks', ahead', hanswer'⟩, hlate⟩ | herror
    · refine .of_overflow fun tail => ?_
      have hcomplete := (Prod.ext_iff.1 (hlate tail)).1.trans (hover _)
      dsimp only at hcomplete
      simp only [requestOverflows, hp, hcounts, habsorb, hcomplete, Bool.false_or, Bool.true_or]
    · have hcounts' (tail : Feed Value) := (Prod.ext_iff.1 (hlate tail)).1.trans (hnone' _)
      have hcomplete (tail : Feed Value) := (Prod.ext_iff.1 (hlate tail)).2.trans (hanswer' _)
      dsimp only at hcounts' hcomplete
      by_cases haverage : tracks'.any (·.coverage.averageOverflows) = true
      · refine .of_overflow fun tail => ?_
        simp only [requestOverflows, hp, hcounts, habsorb, hcounts', hcomplete, haverage,
          Bool.false_or]
      · let s : Resampling := { r with
          points
          tracks := tracks'.map Track.reset
          lookahead := ahead' }
        refine .inl ⟨fun input => (false, some (.ok ⟨ceiling, tracks'⟩, { s with input })), left',
          .inr ⟨fun _ => rfl, ⟨ceiling, tracks'⟩, s, fun input => rfl⟩, fun tail => ?_⟩
        simp only [requestOverflows, close?, hp, hcounts, habsorb, hcounts', hcomplete, haverage,
          Option.map_some, Bool.false_or, s]
    · refine .inr fun e later => ?_
      obtain ⟨hcounts', tracks', ahead', input, hcomplete⟩ := herror e later
      dsimp only at hcounts' hcomplete
      simp only [requestOverflows, close?, hp, hcounts, habsorb, hcounts', hcomplete,
        Option.map_some, Bool.false_or]
      exact ⟨rfl, _, rfl⟩
  · refine .inr fun e later => ?_
    obtain ⟨hcounts, s, habsorb⟩ := herror e later
    dsimp only at hcounts habsorb
    simp only [requestOverflows, close?, hp, hcounts, habsorb, Option.map_some, Bool.false_or]
    exact ⟨rfl, _, rfl⟩

theorem attempt?_answers (r : Resampling) (rows : List (Row Value)) :
    Feed.Answers attempt? (fun r input => { r with input }) r rows := by
  have hisSome (input : Feed Value) :
      (attempt? { r with input }).isSome = r.points.next?.isSome :=
    isSome_attempt? { r with input }
  cases hp : r.points.next? with
  | none =>
    refine .inl ⟨fun _ => none, rows, .inl fun input => rfl, fun tail => ?_⟩
    rw [← Option.not_isSome_iff_eq_none, hisSome, hp]
    exact Bool.false_ne_true
  | some step =>
    have hsome (input : Feed Value) : ∃ closed s, close? { r with input } = some (closed, s) := by
      rw [close?, hp]
      exact ⟨_, _, rfl⟩
    rcases request_reads r rows hp with
      ⟨answer, left, hover | ⟨hnone, cl, s, hanswer⟩, hrequest⟩ | herror
    · refine .inl ⟨fun tail => attempt? { r with input := .ofRows rows ++ tail }, [],
        .inr (.inr ⟨.overflow, fun tail => ?_⟩), fun _ => rfl⟩
      obtain ⟨closed, s, hclose⟩ := hsome (.ofRows rows ++ tail)
      have hcounts := (Prod.ext_iff.1 (hrequest tail)).1.trans (hover _)
      exact ⟨s, attempt?_of_overflow hclose hcounts⟩
    · refine .inl ⟨fun input => some (.ok (cl.point r.resource), { s with input }), left,
        .inr (.inl ⟨_, s, fun input => rfl⟩), fun tail => ?_⟩
      have hcounts := (Prod.ext_iff.1 (hrequest tail)).1.trans (hnone _)
      have hclose := (Prod.ext_iff.1 (hrequest tail)).2.trans (hanswer _)
      exact attempt?_of_close? hclose hcounts
    · refine .inr fun e later => ?_
      obtain ⟨hcounts, s, hclose⟩ := herror e later
      exact ⟨s, attempt?_of_close? hclose hcounts⟩

/-- Rows without errors give points, up to their end or until the run is abandoned. -/
theorem sound_run {C : Abandonment → Prop} (hC : C .overflow) (n : Nat) {r : Resampling}
    {rows : List (Row Value)} (h : r.Holds rows) (hends : r.points.pull? n = none ∨ C .unfinished) :
    Feed.Sound C (fun _ => True) (Feed.run attempt? n r) := by
  induction n generalizing r rows with
  | zero =>
    rw [Feed.run, isSome_attempt?]
    split
    next hsome =>
      have hgoes : r.points.pull? 0 ≠ none := by
        rw [Lattice.pull?, ne_eq, Option.map_eq_none_iff, ← ne_eq, Option.ne_none_iff_isSome]
        exact hsome
      exact ⟨[], by simp, .inr ⟨.unfinished, [], hends.resolve_left hgoes, rfl⟩⟩
    next => exact ⟨[], by simp, .inl rfl⟩
  | succ n ih =>
    cases hp : r.points.next? with
    | none =>
      have hnone : r.attempt? = none := by rw [attempt?, next?_of_none hp, Option.map_none]
      rw [Feed.run, hnone]
      exact ⟨[], by simp, .inl rfl⟩
    | some step =>
      obtain ⟨r', hclose, -, hholds, hpoints, -⟩ := close?_eq h hp
      cases hover : r.requestOverflows with
      | true =>
        obtain ⟨later, hlater⟩ := Feed.run_of_error (attempt?_of_overflow hclose hover) n
        exact ⟨[], by simp, .inr ⟨.overflow, later, hC, hlater⟩⟩
      | false =>
        rw [Lattice.pull?_succ_of_next? hp, ← hpoints] at hends
        obtain ⟨out, -, hout⟩ := ih hholds hends
        rw [Feed.run, attempt?_of_close? hclose hover]
        refine ⟨_ :: out, by simp, hout.imp (congrArg (_ :: ·)) fun hend => ?_⟩
        obtain ⟨cause, later, hcause, heq⟩ := hend
        exact ⟨cause, later, hcause, congrArg (_ :: ·) heq⟩

end Resampling

theorem Feed.prompt_checkedPoints {C : Abandonment → Prop} (hC : C .overflow) {n : Nat}
    {d : Descriptor} {start finish : Timestamp}
    (hends : (Lattice.covering start finish d.step).pull? n = none ∨ C .unfinished)
    (resource : String) :
    Prompt C (fun _ => True) (checkedPoints n d resource start finish) fun _ => True := by
  refine ⟨fun rows _ => Resampling.sound_run hC n ⟨rows, rfl, rfl⟩ hends, fun rows _ => ?_⟩
  refine run_reads (fun r input input' => ?_) Resampling.attempt?_answers n
    (.start d resource start finish []) rows
  rw [Resampling.isSome_attempt?, Resampling.isSome_attempt?]

end Telemetry
