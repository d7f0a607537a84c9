import Telemetry.Proofs.Buckets.Prompt
import Telemetry.Proofs.Points.Prompt
import Telemetry.Proofs.Query.Shape

/-!
# Runs of a query

A run hands out rows until it has come to its end, or until it is abandoned. A count may overflow on
any input. That a run is not finished within the requests that it is allowed is told by its two
walks alone, the one over points and the one over buckets. All stages of a run are prompt, and so
the run is.
-/

namespace Telemetry

namespace Feed

variable {C : Abandonment → Prop}

theorem prompt_abandoned {α β : Type} {P : Row α → Prop} {Q : Row β → Prop} {cause : Abandonment}
    (hC : C cause) : Prompt C P (fun _ => [.error (.abandoned cause)]) Q :=
  ⟨fun _ _ => ⟨[], by simp, .inr ⟨cause, [], hC, rfl⟩⟩, fun _ _ => .inl fun _ => rfl⟩

theorem prompt_calculated {d : Descriptor} (hd : d.WellFormed) (resource : String) :
    Prompt C (fun row => ∃ c, row.Shaped resource c (d.datasources.map (·.label)))
      (calculated d.calculations) fun row => ∃ c, row.Shaped resource c d.labels := by
  refine prompt_mapRows ?_
  rintro row ⟨c, hrow⟩
  obtain ⟨up, hup, hshaped⟩ :=
    Calculation.foldlM_extend_shaped hrow hd.in_order hd.labels_nodup
  exact ⟨up, hup, c, hshaped⟩

theorem prompt_exported (P : Row Float → Prop) (exports : List String) :
    Prompt C P (exported exports) fun _ => True :=
  prompt_mapRows fun row _ => ⟨exportRow exports row, rfl, trivial⟩

end Feed

namespace Query

variable {q : Query} {n : Nat}

/-- Neither walk of the query has more than `n` instants. -/
def EndsWithin (q : Query) (n : Nat) : Prop :=
  (Lattice.covering q.primaryStart q.finish q.descriptor.step).pull? n = none ∧
    (Lattice.covering q.start q.finish q.resolution).pull? n = none

instance (q : Query) (n : Nat) : Decidable (q.EndsWithin n) :=
  inferInstanceAs (Decidable (_ ∧ _))

/-- For what a run of at most `n` requests can be abandoned. -/
def CanAbandon (q : Query) (n : Nat) (cause : Abandonment) : Prop :=
  cause = .overflow ∨ ¬ q.EndsWithin n

theorem prompt_checkedBuckets (hd : q.descriptor.WellFormed) (n : Nat) :
    Feed.Prompt (q.CanAbandon n) (fun _ => True) (q.checkedBuckets n)
      fun row => ∃ c, row.Shaped q.resource c (q.descriptor.datasources.map (·.label)) := by
  have hoverflow : q.CanAbandon n .overflow := .inl rfl
  unfold checkedBuckets
  cases q.boundsOverflow with
  | true => exact Feed.prompt_abandoned hoverflow
  | false =>
    have hpoints : (Lattice.covering q.primaryStart q.finish q.descriptor.step).pull? n = none ∨
        q.CanAbandon n .unfinished :=
      (Classical.em _).imp_right fun hnot => .inr fun h => hnot h.1
    have hbuckets : (Lattice.covering q.start q.finish q.resolution).pull? n = none ∨
        q.CanAbandon n .unfinished :=
      (Classical.em _).imp_right fun hnot => .inr fun h => hnot h.2
    exact (Feed.prompt_checkedBuckets hd.datasources_nodup hbuckets q.resource).comp
      ((Feed.prompt_checkedPoints hoverflow hpoints q.resource).comp
        (Feed.prompt_checkedRatesFrom hoverflow _ _))

theorem prompt_checkedRows (hd : q.descriptor.WellFormed) (n : Nat) :
    Feed.Prompt (q.CanAbandon n) (fun _ => True) (q.checkedRows n) fun _ => True :=
  (Feed.prompt_exported _ q.descriptor.exports).comp
    ((Feed.prompt_calculated hd q.resource).comp (prompt_checkedBuckets hd n))

/-- On rows without errors a run returns rows, unless it is abandoned. -/
theorem run_ofRows (hd : q.descriptor.WellFormed) (n : Nat) (samples : List (Row Value)) :
    (∃ out, q.run n (.ofRows samples) = .ok out) ∨
      ∃ cause, q.CanAbandon n cause ∧ q.run n (.ofRows samples) = .error (.abandoned cause) := by
  obtain ⟨out, -, hout | ⟨cause, later, hcause, hout⟩⟩ :=
    (prompt_checkedRows hd n).total samples (by simp)
  · exact .inl ⟨out, by rw [run, hout, Feed.collect_ofRows]⟩
  · exact .inr ⟨cause, hcause, by rw [run, hout, Feed.collect_failing]⟩

end Query

end Telemetry
