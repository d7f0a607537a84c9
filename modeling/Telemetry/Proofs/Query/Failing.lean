import Telemetry.Proofs.Query.Runs

/-!
# Queries of an input that fails

A run is prompt. What it has handed out before its input fails is the beginning of what it would
have handed out if the input had gone on. Then it has all it needs and does not notice, or it
answers with the failure, once, and with nothing afterwards, unless it has to be abandoned before
the failure is met.
-/

namespace Telemetry

namespace Feed

variable {α : Type}

theorem pulls_length_add (feed : Feed α) (n : Nat) :
    feed.pulls (feed.length + n) = feed.map some ++ List.replicate n none := by
  rw [pulls_eq, List.take_of_length_le (Nat.le_add_right _ _), Nat.add_sub_cancel_left]

/-- A reader that stops at the first error gets these items, and nothing after them. -/
def Iterates (feed items : Feed α) : Prop :=
  ∀ n, feed.untilError.pulls (items.length + n) = items.map some ++ List.replicate n none

theorem iterates_ofRows (rows : List (Row α)) : Iterates (ofRows rows) (ofRows rows) := by
  intro n
  rw [untilError_ofRows, pulls_length_add]

theorem iterates_failing (rows : List (Row α)) (e : QueryError) (later : Feed α) :
    Iterates (ofRows rows ++ .error e :: later) (ofRows rows ++ [.error e]) := by
  intro n
  rw [untilError_failing, pulls_length_add]

end Feed

namespace Query

variable {resource : String} {start finish : Timestamp} {resolution : Duration} {d : Descriptor}
  {policy : CounterWrap} {q : Query} {n : Nat}

/-- The rows begin what a run hands out on every input that begins with `rows` and goes on with
valid rows. -/
def Begins (q : Query) (n : Nat) (rows : List (Row Value)) (out : List (Row Float)) : Prop :=
  ∀ more, Feed.Valid q.resource (rows ++ more) →
    ∃ rest, q.checkedRows n ((Feed.ofRows (rows ++ more)).scan q.resource) = .ofRows out ++ rest

/-- How a run ends whose input holds `rows` and then a failure. -/
inductive Ends (q : Query) (n : Nat) (rows : List (Row Value)) (failing : Feed Value)
    (out : List (Row Float)) (kind : QueryErrorKind) (message : String) : Prop
  /-- It has all rows without what stands behind `rows`, whatever that is. -/
  | finished
    (all : ∀ tail, q.checkedRows n ((Feed.ofRows rows ++ tail).scan q.resource) = .ofRows out)
    (iterates : Feed.Iterates (q.checkedRows n failing) (.ofRows out))
    (run : q.run n failing = .ok out)
  /-- It answers with the failure. -/
  | failed (e : QueryError) (kind_eq : e.kind = kind) (message_eq : e.message = message)
    (iterates : Feed.Iterates (q.checkedRows n failing) (Feed.ofRows out ++ [.error e]))
    (run : q.run n failing = .error e)
  /-- It is abandoned, whatever stands behind `rows`. -/
  | abandoned (cause : Abandonment) (why : q.CanAbandon n cause)
    (all : ∀ tail, (q.checkedRows n ((Feed.ofRows rows ++ tail).scan q.resource)).untilError =
      Feed.ofRows out ++ [.error (.abandoned cause)])
    (run : q.run n failing = .error (.abandoned cause))

/-- A run that has read enough. -/
theorem ends_of_finished (hd : q.descriptor.WellFormed) {rows : List (Row Value)}
    (hvalid : Feed.Valid q.resource rows) (hdone : Feed.Finished (q.checkedRows n) rows)
    (kind : QueryErrorKind) (message : String) :
    ∃ out, q.Begins n rows out ∧ ∀ tail,
      q.Ends n rows ((Feed.ofRows rows ++ tail).scan q.resource) out kind message := by
  have hall (tail : Feed Value) : q.checkedRows n ((Feed.ofRows rows ++ tail).scan q.resource) =
      q.checkedRows n (.ofRows rows) := by
    rw [Feed.scan_append hvalid, hdone]
  obtain ⟨out, -, hout | ⟨cause, later, hcause, hout⟩⟩ :=
    (prompt_checkedRows hd n).total rows (by simp)
  · refine ⟨out, fun more _ => ⟨[], ?_⟩, fun tail => .finished (fun tail => ?_) ?_ ?_⟩
    · rw [Feed.ofRows_append, hall, hout, List.append_nil]
    · rw [hall, hout]
    · rw [hall, hout]
      exact Feed.iterates_ofRows out
    · rw [run, hall, hout, Feed.collect_ofRows]
  · refine ⟨out, fun more _ => ⟨.error (.abandoned cause) :: later, ?_⟩,
      fun tail => .abandoned cause hcause (fun tail => ?_) ?_⟩
    · rw [Feed.ofRows_append, hall, hout]
    · rw [hall, hout, Feed.untilError_failing]
    · rw [run, hall, hout, Feed.collect_failing]

/-- Rows are valid until the samples cannot be read on, or a row of another resource or one that is
not later than the row before it comes. A run hands out the first of the rows that it would hand out
if valid rows had followed. Then it has finished, whatever follows, or it answers once with an error
of the kind and with the message of the failure, or it is abandoned, whatever follows. -/
theorem run_failing {draft : Draft} (hd : draft.build = .ok d)
    (hq : check resource start finish resolution d policy = .ok q) {rows : List (Row Value)}
    (hvalid : Feed.Valid q.resource rows) {item : Except QueryError (Row Value)}
    {kind : QueryErrorKind} {message : String}
    (hfail : Feed.Failing q.resource rows item kind message) (later : Feed Value) (n : Nat) :
    ∃ out, q.Begins n rows out ∧
      q.Ends n rows ((Feed.ofRows rows ++ item :: later).scan q.resource) out kind message := by
  obtain ⟨-, -, rfl⟩ := check_ok hq
  let q : Query := ⟨resource, start, finish, resolution, d, policy⟩
  have hwf : q.descriptor.WellFormed := Draft.wellFormed_of_build hd
  rcases (prompt_checkedRows hwf n).reads rows (by simp) with hdone | ⟨out, hwait⟩
  · obtain ⟨out, hbegins, hends⟩ := ends_of_finished hwf hvalid hdone kind message
    exact ⟨out, hbegins, hends (item :: later)⟩
  · obtain ⟨e, later', hkind, hmessage, hscan⟩ := Feed.scan_failing hvalid hfail later
    obtain ⟨later'', hlater⟩ := hwait.hands_on e later'
    refine ⟨out, fun more hmore => ?_, .failed e hkind hmessage ?_ ?_⟩
    · rw [Feed.scan_ofRows hmore, Feed.ofRows_append]
      exact hwait.handed_out (Feed.ofRows more)
    · rw [hscan, hlater]
      exact Feed.iterates_failing out e later''
    · rw [run, hscan, hlater, Feed.collect_failing]

/-- After the first five rows comes one that is older than the last of them. -/
theorem run_failing_stale :
    check "host" (.ofTicks 4 .seconds) (.ofTicks 8 .seconds) (.ofTicks 4 .seconds) .load .wrap =
      .ok (.load 4 8) ∧
    Feed.Valid "host" (loadRows.take 5) ∧
    Feed.Failing "host" (loadRows.take 5) (.ok (.gauge (.ofTicks 3 .seconds) "host" "cpu" 3))
      .consistency
      "row at 1970-01-01T00:00:03+00:00 does not follow row at 1970-01-01T00:00:04+00:00" ∧
    (load 4 8).EndsWithin 9 ∧
    ∃ out, (load 4 8).Begins 9 (loadRows.take 5) out ∧
      (load 4 8).Ends 9 (loadRows.take 5)
        ((Feed.ofRows (loadRows.take 5) ++
          Except.ok (.gauge (.ofTicks 3 .seconds) "host" "cpu" 3) ::
            Feed.ofRows (loadRows.drop 5)).scan
            "host") out .consistency
        "row at 1970-01-01T00:00:03+00:00 does not follow row at 1970-01-01T00:00:04+00:00" := by
  have hq : check "host" (.ofTicks 4 .seconds) (.ofTicks 8 .seconds) (.ofTicks 4 .seconds) .load
      .wrap = .ok (.load 4 8) := rfl
  have hvalid : Feed.Valid "host" (loadRows.take 5) := ⟨by decide, by decide⟩
  have hfail : Feed.Failing "host" (loadRows.take 5)
      (.ok (.gauge (.ofTicks 3 .seconds) "host" "cpu" 3)) .consistency
      "row at 1970-01-01T00:00:03+00:00 does not follow row at 1970-01-01T00:00:04+00:00" :=
    .stale _ (.gauge (.ofTicks 4 .seconds) "host" "cpu" (.ofNat 4)) rfl rfl (by decide)
  exact ⟨hq, hvalid, hfail, by decide, run_failing Draft.build_load hq hvalid hfail _ 9⟩

end Query

end Telemetry
