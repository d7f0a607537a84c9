import Telemetry.Proofs.Buckets.Run
import Telemetry.Proofs.Prompt

/-!
# Buckets are prompt

A bucket is handed out once the first point behind it was seen, which stays in the input for the
next bucket. So a reading of points comes to its end within the points at hand, or an error behind
them ends it.
-/

namespace Telemetry

namespace Bucketing

theorem skip_reads (limit : Timestamp) (rows : List (Row Float)) :
    Feed.Reads (skip limit) rows (fun answer => ∀ input, answer input = (none, input))
      fun e result => ∃ input, result = (some e, input) := by
  induction rows with
  | nil => exact .inr fun e later => ⟨later, rfl⟩
  | cons row rest ih =>
    by_cases hle : row.timestamp ≤ limit
    · exact ih.of_eq fun tail => if_pos hle
    · exact .inl ⟨_, row :: rest, fun input => rfl, fun tail => if_neg hle⟩

theorem prime_reads (b : Bucketing) (ceiling : Timestamp) (rows : List (Row Float)) :
    Feed.Reads (fun input => { b with input }.prime ceiling) rows
      (fun answer => ∃ primed, ∀ input, answer input = (none, { b with primed, input }))
      fun e result => ∃ b', result = (some e, b') := by
  simp only [prime]
  cases hprimed : b.primed with
  | true =>
    refine .inl ⟨_, rows, ⟨true, fun input => rfl⟩, fun tail => ?_⟩
    simp only [if_true, ← hprimed]
  | false =>
    rcases skip_reads (ceiling - b.resolution) rows with ⟨answer, left, hanswer, hskip⟩ | herror
    · refine .inl ⟨_, left, ⟨true, fun input => rfl⟩, fun tail => ?_⟩
      simp [hskip, hanswer]
    · refine .inr fun e later => ?_
      obtain ⟨input, hstopped⟩ := herror e later
      simp only [hstopped]
      exact ⟨_, rfl⟩

theorem fill_reads (ceiling : Timestamp) (buckets : List Bucket) (rows : List (Row Float)) :
    Feed.Reads (fill ceiling buckets) rows
      (fun answer => ∃ buckets', ∀ input, answer input = (buckets', none, input))
      fun e result => ∃ buckets' input, result = (buckets', some e, input) := by
  induction rows generalizing buckets with
  | nil => exact .inr fun e later => ⟨buckets, later, rfl⟩
  | cons row rest ih =>
    by_cases hle : row.timestamp ≤ ceiling
    · exact (ih (buckets.map (Bucket.add · row))).of_eq fun tail => if_pos hle
    · exact .inl ⟨_, row :: rest, ⟨buckets, fun input => rfl⟩, fun tail => if_neg hle⟩

theorem next?_answers (b : Bucketing) (rows : List (Row Float)) :
    Feed.Answers next? (fun b input => { b with input }) b rows := by
  cases hp : b.points.next? with
  | none =>
    have hnone (input : Feed Float) : next? { b with input } = none := next?_of_none hp
    exact .inl ⟨fun _ => none, rows, .inl fun input => rfl, fun tail => hnone _⟩
  | some step =>
    obtain ⟨ceiling, points⟩ := step
    rcases prime_reads { b with points } ceiling rows with
      ⟨answer, left, ⟨primed, hanswer⟩, hprime⟩ | herror
    · rcases fill_reads ceiling (b.buckets.map ({ · with values := [] })) left with
        ⟨answer', left', ⟨buckets, hanswer'⟩, hfill⟩ | herror
      · refine .inl ⟨_, left', .inr (.inl ⟨(Row.empty ceiling b.resource).insertAll
          (buckets.map (·.measurement b.resource ceiling b.pointsPerBucket)), { b with
          points
          primed
          buckets := buckets.map ({ · with attributes := none }) }, fun input => rfl⟩),
          fun tail => ?_⟩
        simp only [next?, hp, Option.map_some, hprime, hanswer, hfill, hanswer']
      · refine .inr fun e later => ?_
        obtain ⟨buckets, input, hstopped⟩ := herror e later
        simp only [next?, hp, Option.map_some, hprime, hanswer, hstopped]
        exact ⟨_, rfl⟩
    · refine .inr fun e later => ?_
      obtain ⟨b', hstopped⟩ := herror e later
      simp only [next?, hp, Option.map_some, hstopped]
      exact ⟨_, rfl⟩

end Bucketing

theorem exists_of_mem_bucketRows {d : Descriptor} {resource : String} {pointsPerBucket : Float}
    {cs : List Timestamp} {rows : List (Row Float)} {row : Row Float}
    (h : row ∈ bucketRows d resource pointsPerBucket cs rows) :
    ∃ points c, row = d.consolidated resource pointsPerBucket points c := by
  induction cs generalizing rows with
  | nil => cases h
  | cons c rest ih =>
    rcases List.mem_cons.1 h with rfl | hmem
    · exact ⟨_, c, rfl⟩
    · exact ih hmem

/-- What a run ends with holds no rows. -/
theorem Feed.sound_append_goesOn {C : Abandonment → Prop} {Q : Row Float → Prop}
    {rows : List (Row Float)} (h : ∀ row ∈ rows, Q row) {l : Lattice} {n : Nat}
    (hends : l.pull? n = none ∨ C .unfinished) : Sound C Q (ofRows rows ++ goesOn l n) := by
  rcases hends with hnone | hC
  · rw [goesOn_of_none hnone, List.append_nil]
    exact sound_ofRows h
  · rw [goesOn]
    split
    · exact ⟨rows, h, .inr ⟨.unfinished, [], hC, rfl⟩⟩
    · rw [List.append_nil]
      exact sound_ofRows h

/-- Whatever the points are, the rows of the buckets have all datasources. -/
theorem Feed.prompt_checkedBuckets {C : Abandonment → Prop} {d : Descriptor}
    (h : (d.datasources.map (·.label)).Nodup) {n : Nat} {start finish : Timestamp}
    {resolution : Duration}
    (hends : (Lattice.covering start finish resolution).pull? n = none ∨ C .unfinished)
    (resource : String) :
    Prompt C (fun _ => True) (checkedBuckets n d resource start finish resolution)
      fun row => ∃ c, row.Shaped resource c (d.datasources.map (·.label)) := by
  refine ⟨fun rows _ => ?_, fun rows _ => ?_⟩
  · rw [checkedBuckets_ofRows]
    refine sound_append_goesOn (fun row hrow => ?_) hends
    obtain ⟨points, c, rfl⟩ := exists_of_mem_bucketRows hrow
    exact ⟨c, d.consolidated_shaped h resource _ points c⟩
  · refine run_reads (fun b input input' => ?_) Bucketing.next?_answers n
      (.start d resource start finish resolution []) rows
    simp only [Bucketing.next?, Option.isSome_map]

end Telemetry
