import Mathlib.Data.List.Sort
import Telemetry.Proofs.Points.Alike
import Telemetry.Proofs.Query.Runs
import Telemetry.Proofs.Store.History

/-!
# Queries of stored samples

In what order samples were stored leaves traces in a store: the readings of a row stand in the
order in which their names came, and its instant is written in the unit of the first of them. A
query does not see them. As long as no sample took the place of another, all orders of storing the
same samples answer every query alike.
-/

namespace Telemetry

namespace Store

variable {samples samples' : List Sample} {key : String × Int × String} {s : Sample}

theorem latest_eq_some_iff (hkeys : (samples.map (·.key)).Nodup) :
    latest samples key = some s ↔ s ∈ samples ∧ s.key = key := by
  have hmem {s : Sample} (hs : latest samples key = some s) : s ∈ samples ∧ s.key = key := by
    simpa using List.mem_filter.1 (List.mem_of_getLast? hs)
  refine ⟨hmem, ?_⟩
  rintro ⟨hs, rfl⟩
  obtain ⟨s', hs'⟩ := Option.isSome_iff_exists.1 (latest_isSome.2 (List.mem_map_of_mem hs))
  obtain ⟨hmem', hkey⟩ := hmem hs'
  rw [hs', List.inj_on_of_nodup_map hkeys hmem' hs hkey]

/-- Where no sample takes the place of another, the order of the samples does not matter. -/
theorem latest_perm (hperm : samples.Perm samples') (hkeys : (samples.map (·.key)).Nodup)
    (key : String × Int × String) : latest samples key = latest samples' key := by
  have hkeys' : (samples'.map (·.key)).Nodup := (hperm.map _).nodup_iff.1 hkeys
  ext s
  rw [latest_eq_some_iff hkeys, latest_eq_some_iff hkeys', hperm.mem_iff]

theorem get?_of_mem_select {resource : String} {start finish : Timestamp} {row : Row Value}
    (h : row ∈ (empty.insertAll samples).select resource start finish) (name : String) :
    row.get? name = latest samples (resource, row.timestamp.nanos, name) := by
  rw [← lookup_insertAll_empty, lookup, (sorted_insertAll_empty samples).row?_of_mem_select h]
  rfl

/-- The same samples, stored in two orders, are selected in rows that are alike. -/
theorem select_alike (hperm : samples.Perm samples') (hkeys : (samples.map (·.key)).Nodup)
    (resource : String) (start finish : Timestamp) :
    List.Forall₂ Row.Alike ((empty.insertAll samples).select resource start finish)
      ((empty.insertAll samples').select resource start finish) := by
  have hinstants : ((empty.insertAll samples).select resource start finish).map
        (·.timestamp.nanos) =
      ((empty.insertAll samples').select resource start finish).map (·.timestamp.nanos) := by
    refine List.Pairwise.eq_of_mem_iff (r := (· < ·)) ?_ ?_ fun n => ?_
    · exact List.pairwise_map.2 ((sorted_insertAll_empty samples).select_ascending _ _ _)
    · exact List.pairwise_map.2 ((sorted_insertAll_empty samples').select_ascending _ _ _)
    · simp only [List.mem_map, exists_mem_select_iff, hperm.mem_iff]
  refine forall₂_of_map_eq hinstants fun row hrow row' hrow' hnanos => ⟨hnanos, fun name => ?_⟩
  rw [get?_of_mem_select hrow, get?_of_mem_select hrow', hnanos, latest_perm hperm hkeys]

end Store

namespace Query

variable {resource : String} {start finish : Timestamp} {resolution : Duration} {d : Descriptor}
  {policy : CounterWrap} {q : Query}

theorem checkedRows_alike {rows rows' : List (Row Value)} (h : List.Forall₂ Row.Alike rows rows')
    (q : Query) (n : Nat) : q.checkedRows n (.ofRows rows) = q.checkedRows n (.ofRows rows') := by
  have hmetrics : ((q.descriptor.sources.map fun m => (⟨m, none⟩ : Feed.Tracked)).map
      (·.metric)).Nodup := by
    simpa [Function.comp_def, Descriptor.sources] using nodup_eraseDups _
  have hpoints := Feed.checkedPoints_alike
    (Feed.checkedRatesFrom_alike q.counterWrap h hmetrics) n q.descriptor q.resource
    q.primaryStart q.finish
  rw [checkedRows, checkedRows, checkedBuckets, checkedBuckets, Feed.checkedRates,
    Feed.checkedRates, hpoints]

/-- The stored rows of a resource come through the scan of the query. -/
theorem runSelect_written (q : Query) (n : Nat) (samples : List Sample) :
    q.runSelect n (Store.empty.insertAll samples) = q.run n (.ofRows
      ((Store.empty.insertAll samples).select q.resource q.primaryStart q.finish)) := by
  rw [runSelect, Feed.scan_ofRows (Store.valid_select samples _ _ _)]

/-- Of all orders in which samples can be stored, one at a time or many at once, none changes what
a query returns, or for what its run is abandoned. -/
theorem runSelect_stored {draft : Draft} (hd : draft.build = .ok d)
    (hq : check resource start finish resolution d policy = .ok q)
    {writes writes' : List Store.Write}
    (hperm : (writes.flatMap Store.Write.stored).Perm (writes'.flatMap Store.Write.stored))
    (hkeys : ((writes.flatMap Store.Write.stored).map (·.key)).Nodup) (n : Nat) :
    (∃ out, q.runSelect n (.written writes) = .ok out ∧
      q.runSelect n (.written writes') = .ok out) ∨
    ∃ cause, q.CanAbandon n cause ∧
      q.runSelect n (.written writes) = .error (.abandoned cause) ∧
      q.runSelect n (.written writes') = .error (.abandoned cause) := by
  obtain ⟨-, -, rfl⟩ := check_ok hq
  let q : Query := ⟨resource, start, finish, resolution, d, policy⟩
  have halike := Store.select_alike hperm hkeys q.resource q.primaryStart q.finish
  have hsame : q.runSelect n (.written writes) = q.runSelect n (.written writes') := by
    rw [Store.written_eq, Store.written_eq, runSelect_written, runSelect_written, run, run,
      checkedRows_alike halike]
  have houtcome := run_ofRows (q := q) (Draft.wellFormed_of_build hd) n
    ((Store.empty.insertAll (writes.flatMap Store.Write.stored)).select q.resource q.primaryStart
      q.finish)
  rw [← runSelect_written, ← Store.written_eq] at houtcome
  obtain ⟨out, hout⟩ | ⟨cause, hcause, hout⟩ := houtcome
  · exact .inl ⟨out, hout, hsame ▸ hout⟩
  · exact .inr ⟨cause, hcause, hout, hsame ▸ hout⟩

/-- Two metrics at one instant, one of them in seconds and one in milliseconds, and a later sample
of the first. -/
def twoUnits : List Sample :=
  [⟨.ofTicks 1 .seconds, "host", "cpu", .gauge 1, none⟩,
    ⟨.ofTicks 1000 .milliseconds, "host", "mem", .gauge 2, none⟩,
    ⟨.ofTicks 2 .seconds, "host", "cpu", .gauge 3, none⟩]

theorem runSelect_stored_twoUnits :
    check "host" (.ofTicks 0 .seconds) (.ofTicks 4 .seconds) (.ofTicks 4 .seconds) .load .wrap =
      .ok (.load 0 4) ∧
    ([Store.Write.many twoUnits].flatMap Store.Write.stored).Perm
      ((twoUnits.reverse.map Store.Write.one).flatMap Store.Write.stored) ∧
    (([Store.Write.many twoUnits].flatMap Store.Write.stored).map (·.key)).Nodup ∧
    (load 0 4).EndsWithin 9 ∧
    ∃ out, (load 0 4).runSelect 9 (.written [.many twoUnits]) = .ok out ∧
      (load 0 4).runSelect 9 (.written (twoUnits.reverse.map .one)) = .ok out := by
  have hq : check "host" (.ofTicks 0 .seconds) (.ofTicks 4 .seconds) (.ofTicks 4 .seconds) .load
      .wrap = .ok (.load 0 4) := rfl
  have hperm : ([Store.Write.many twoUnits].flatMap Store.Write.stored).Perm
      ((twoUnits.reverse.map Store.Write.one).flatMap Store.Write.stored) :=
    (List.reverse_perm twoUnits).symm
  have hkeys : (([Store.Write.many twoUnits].flatMap Store.Write.stored).map (·.key)).Nodup := by
    decide
  have hsome : ((load 0 4).runSelect 9 (.written [.many twoUnits])).toOption.isSome = true := by
    decide +kernel
  refine ⟨hq, hperm, hkeys, by decide, ?_⟩
  rcases runSelect_stored Draft.build_load hq hperm hkeys 9 with hout | ⟨cause, -, hcause, -⟩
  · exact hout
  · rw [hcause] at hsome
    cases hsome

end Query

end Telemetry
