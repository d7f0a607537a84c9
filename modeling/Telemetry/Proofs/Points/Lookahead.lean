import Telemetry.Proofs.Feed
import Telemetry.Proofs.Points.Batch

/-!
# Rows read ahead

A request for a point consumes the rows that are due and may read further ones ahead: the first row
that lies behind the bucket, and those that are looked through for what follows the last sample of a
datasource. Rows that were read ahead are consumed before any others are read, so that the rows read
so far are the consumed ones and those ahead, in the order of the input.

Datasources search in the same rows, each up to a horizon of its own, one heartbeat behind its last
sample. A search reads on only if all rows ahead lie before its horizon, and it stops with the first
row that does not. So whichever search came last, no row but the last one lies behind all horizons.
Last samples only move on, so what was read for an earlier point stays within the horizons of later
ones.
-/

namespace Telemetry

section DropLast

variable {α : Type} {a b : α} {l : List α}

theorem dropLast_subset_cons (a : α) (l : List α) : l.dropLast ⊆ (a :: l).dropLast := by
  cases l with
  | nil => exact List.nil_subset _
  | cons b l => exact List.subset_cons_self a _

theorem mem_dropLast_cons (h : b ∈ (a :: l).dropLast) : b = a ∨ b ∈ l.dropLast := by
  cases l with
  | nil => cases h
  | cons c l => exact List.mem_cons.1 h

end DropLast

/-! ## Rows that are due -/

namespace Feed

variable {α : Type}

/-- The rows that a feed begins with, before the first that is later than `c` and before the first
error. -/
def upTo (c : Timestamp) : Feed α → List (Row α)
  | [] => []
  | .error _ :: _ => []
  | .ok row :: rest => if row.timestamp ≤ c then row :: upTo c rest else []

@[simp] theorem upTo_ofRows (c : Timestamp) (rows : List (Row α)) :
    upTo c (ofRows rows) = Row.upTo c rows := by
  induction rows with
  | nil => rfl
  | cons row rest ih => by_cases hle : row.timestamp ≤ c <;> simp [ofRows_cons, upTo, hle, ih]

end Feed

namespace Resampling

/-- The rows up to `ceiling`, those that were read ahead first. -/
def dueBy (r : Resampling) (ceiling : Timestamp) : List (Row Value) :=
  Feed.upTo ceiling (.ofRows r.lookahead ++ r.input)

/-- The rows that the next request consumes; by `tracks_absorb`, it advances each track by just
these. -/
def due (r : Resampling) : List (Row Value) :=
  match r.points.next? with
  | none => []
  | some (ceiling, _) => r.dueBy ceiling

/-- The rows that `n` requests consume. -/
def consumed (r : Resampling) (n : Nat) : List (Row Value) :=
  (List.range n).flatMap fun i => (Feed.after next? i r).due

theorem consumed_succ (r : Resampling) (n : Nat) :
    r.consumed (n + 1) = r.consumed n ++ (Feed.after next? n r).due := by
  simp [consumed, List.range_succ]

variable {r : Resampling} {rows : List (Row Value)} {ceiling : Timestamp} {points : Lattice}

theorem due_of_none (hp : r.points.next? = none) : r.due = [] := by
  rw [due, hp]

theorem due_of_holds (h : r.Holds rows) (hp : r.points.next? = some (ceiling, points)) :
    r.due = Row.upTo ceiling rows := by
  obtain ⟨unread, hinput, rfl⟩ := h
  simp only [due, hp, dueBy, hinput, ← Feed.ofRows_append, Feed.upTo_ofRows]

theorem tracks_absorbInput (floor ceiling : Timestamp) (tracks : List Track)
    (input : Feed Value) :
    (absorbInput floor ceiling tracks input).1 =
      tracks.map (·.absorb floor (Feed.upTo ceiling input)) := by
  fun_induction absorbInput floor ceiling tracks input with
  | case1 tracks => simp [Feed.upTo]
  | case2 tracks e rest => simp [Feed.upTo]
  | case3 tracks row rest hle ih =>
    rw [ih]
    simp [Feed.upTo, hle, advanceAll]
  | case4 tracks row rest hle => simp [Feed.upTo, hle]

/-- Each track is advanced by the rows that are due and by no others, in their order. An error
behind them takes none of them back. -/
theorem tracks_absorb (r : Resampling) (floor ceiling : Timestamp) :
    (r.absorb floor ceiling).2.tracks = r.tracks.map (·.absorb floor (r.dueBy ceiling)) := by
  generalize hahead : r.lookahead = ahead
  induction ahead generalizing r with
  | nil =>
    have hinput := tracks_absorbInput floor ceiling r.tracks r.input
    simpa [absorb, hahead, absorbAhead, dueBy, Feed.ofRows] using hinput
  | cons row rest ih =>
    by_cases hle : row.timestamp ≤ ceiling
    · rw [absorb_of_le hahead hle, ih _ rfl]
      simp [dueBy, hahead, Feed.ofRows, Feed.upTo, hle, advanceAll]
    · simp [absorb, dueBy, hahead, absorbAhead, Feed.ofRows, Feed.upTo, hle]

end Resampling

/-! ## How far searches read -/

/-- The datasource was sampled, and a row is less than a heartbeat behind its last sample. -/
def Track.Awaits (t : Track) (row : Row Value) : Prop :=
  ∃ last ∈ t.coverage.last, row.timestamp < last + t.datasource.heartbeat

namespace Resampling

section Reading

variable {row : Row Value} {metric : String} {horizon : Timestamp}

theorem dropLast_absorbInput (floor ceiling : Timestamp) (tracks : List Track)
    (input : Feed Value) : (absorbInput floor ceiling tracks input).2.2.1.dropLast = [] := by
  fun_induction absorbInput floor ceiling tracks input with
  | case3 tracks row rest hle ih => exact ih
  | _ => rfl

/-- One row is read behind the bucket at most, and only if no other row is left ahead. -/
theorem dropLast_absorb (r : Resampling) (floor ceiling : Timestamp) :
    (r.absorb floor ceiling).2.lookahead.dropLast ⊆ r.lookahead.dropLast := by
  generalize hahead : r.lookahead = ahead
  induction ahead generalizing r with
  | nil => simp [absorb, hahead, absorbAhead, dropLast_absorbInput]
  | cons row rest ih =>
    by_cases hle : row.timestamp ≤ ceiling
    · rw [absorb_of_le hahead hle]
      intro later hlater
      have hmem := ih { r with
        tracks := advanceAll r.tracks floor row
        lookahead := rest } rfl hlater
      exact dropLast_subset_cons row rest hmem
    · simp [absorb, hahead, absorbAhead, hle]

theorem lt_of_judge?_eq_none (h : judge? metric horizon row = none) : row.timestamp < horizon := by
  unfold judge? at h
  split at h
  · cases h
  · split at h
    · cases h
    · exact Int.not_le.1 ‹_›

theorem lt_of_mem_dropLast_seekInput (metric : String) (horizon : Timestamp)
    (input : Feed Value) :
    ∀ row ∈ (seekInput metric horizon input).2.1.dropLast, row.timestamp < horizon := by
  fun_induction seekInput metric horizon input with
  | case1 => simp
  | case2 => simp
  | case3 => simp
  | case4 row rest hjudge answer rows input hseek ih =>
    intro row' hrow
    rcases mem_dropLast_cons hrow with rfl | hmem
    · exact lt_of_judge?_eq_none hjudge
    · rw [hseek] at ih
      exact ih row' hmem

/-- A search reads on behind rows that all lie before its horizon. -/
theorem lt_of_mem_dropLast_seek (metric : String) (horizon : Timestamp)
    (ahead : List (Row Value)) (input : Feed Value) :
    ∀ row ∈ (seek metric horizon ahead input).2.1.dropLast,
      row ∈ ahead.dropLast ∨ row.timestamp < horizon := by
  intro row hrow
  unfold seek at hrow
  cases hfind : ahead.findSome? (judge? metric horizon) with
  | some found =>
    rw [hfind] at hrow
    exact .inl hrow
  | none =>
    rw [hfind] at hrow
    have hmore := lt_of_mem_dropLast_seekInput metric horizon input
    dsimp only at hrow
    rcases List.eq_nil_or_concat (seekInput metric horizon input).2.1 with
      hnil | ⟨init, last, hsnoc⟩
    · rw [hnil, List.append_nil] at hrow
      exact .inl hrow
    · rw [List.concat_eq_append] at hsnoc
      rw [hsnoc, ← List.append_assoc, List.dropLast_concat] at hrow
      rw [hsnoc, List.dropLast_concat] at hmore
      refine .inr ((List.mem_append.1 hrow).elim (fun hmem => ?_) (hmore row))
      exact lt_of_judge?_eq_none (List.findSome?_eq_none_iff.1 hfind row hmem)

/-- The induction runs over the datasources, each of which searches in the rows that the ones before
it have left ahead. -/
theorem awaits_of_mem_dropLast_complete (floor ceiling : Timestamp) (tracks : List Track)
    (ahead : List (Row Value)) (input : Feed Value) :
    ∀ row ∈ (complete floor ceiling tracks ahead input).2.2.1.dropLast,
      row ∈ ahead.dropLast ∨ ∃ t ∈ tracks, t.Awaits row := by
  induction tracks generalizing ahead input with
  | nil => exact fun row hrow => .inl hrow
  | cons t rest ih =>
    have hrest (ahead : List (Row Value)) (input : Feed Value) :
        ∀ row ∈ (complete floor ceiling rest ahead input).2.2.1.dropLast,
          row ∈ ahead.dropLast ∨ ∃ u ∈ t :: rest, u.Awaits row := by
      intro row hrow
      refine (ih ahead input row hrow).imp_right ?_
      rintro ⟨u, hu, hawaits⟩
      exact ⟨u, List.mem_cons_of_mem _ hu, hawaits⟩
    intro row hrow
    rw [complete] at hrow
    cases hlast : t.coverage.last with
    | none =>
      simp only [hlast] at hrow
      exact hrest ahead input row hrow
    | some last =>
      simp only [hlast] at hrow
      by_cases hle : ceiling ≤ last
      · rw [if_pos hle] at hrow
        exact hrest ahead input row hrow
      · rw [if_neg hle] at hrow
        have hseek : ∀ row ∈ (seek t.datasource.source (last + t.datasource.heartbeat) ahead
            input).2.1.dropLast, row ∈ ahead.dropLast ∨ ∃ u ∈ t :: rest, u.Awaits row := by
          intro row hrow
          refine (lt_of_mem_dropLast_seek _ _ _ _ row hrow).imp_right fun hlt => ?_
          exact ⟨t, List.mem_cons_self, last, hlast, hlt⟩
        generalize seek t.datasource.source (last + t.datasource.heartbeat) ahead input = found
          at hrow hseek
        obtain ⟨e | c, ahead', input'⟩ := found
        · exact hseek row hrow
        · exact (hrest ahead' input' row hrow).elim (hseek row) .inr

end Reading

/-! ## One request -/

variable {r : Resampling} {rows : List (Row Value)} {ceiling : Timestamp} {points : Lattice}

/-- Tracks are advanced by the rows that are due. What is ahead after the request, apart from the
last row, was ahead before it or is awaited by one of the tracks. -/
theorem next?_due (h : r.Holds rows) (hp : r.points.next? = some (ceiling, points)) :
    ∃ point r', r.next? = some (.ok point, r') ∧ point.timestamp = ceiling ∧
      r'.tracks = r.tracks.map (fun t => (t.absorb (ceiling - points.interval) r.due).reset) ∧
      r'.Holds (Row.after ceiling rows) ∧
      ∀ row ∈ r'.lookahead.dropLast,
        row ∈ r.lookahead.dropLast ∨ ∃ t ∈ r'.tracks, t.Awaits row := by
  have hdue : r.due = ({ r with points } : Resampling).dueBy ceiling := by
    rw [due, hp]
    rfl
  generalize hfloor : ceiling - points.interval = floor
  have htracks := tracks_absorb { r with points } floor ceiling
  have hkept := dropLast_absorb { r with points } floor ceiling
  obtain ⟨u, habsorb, -, ⟨unread, hinput, hrows⟩, -, -⟩ :=
    absorb_eq (r := { r with points }) h floor ceiling
  obtain ⟨ahead, unread', hcomplete, hleft⟩ := complete_eq floor ceiling u.tracks u.lookahead unread
  have hawaited := awaits_of_mem_dropLast_complete floor ceiling u.tracks u.lookahead
    (.ofRows unread)
  rw [habsorb, ← hdue] at htracks
  rw [habsorb] at hkept
  rw [hcomplete] at hawaited
  let closed := u.tracks.map (·.complete floor ceiling (u.lookahead ++ unread))
  have hreset : closed.map Track.reset = u.tracks.map Track.reset := by
    rw [List.map_map]
    exact List.map_congr_left fun t _ => Track.reset_complete
  refine ⟨pointOf r.resource ceiling closed,
    { u with tracks := closed.map Track.reset, lookahead := ahead, input := .ofRows unread' },
    ?_, Row.timestamp_insertAll, ?_, ⟨unread', rfl, hleft.trans hrows⟩, ?_⟩
  · simp only [next?, close?, hp, Option.map_some, hfloor, habsorb, hinput, hcomplete]
    rfl
  · rw [hreset, show u.tracks = _ from htracks, List.map_map]
    rfl
  · rw [hreset]
    intro row hrow
    refine (hawaited row hrow).imp (fun hmem => hkept hmem) ?_
    rintro ⟨t, ht, hawaits⟩
    exact ⟨t.reset, List.mem_map_of_mem ht, hawaits⟩

end Resampling

/-! ## Requests in a row -/

/-- A datasource of which nothing is known yet but when it was sampled last. -/
def Datasource.trackAfter (ds : Datasource) (rows : List (Row Value)) : Track :=
  ⟨ds, { last := (samplesOf ds.source rows).getLast?.map (·.timestamp) }⟩

theorem Datasource.reset_absorb_trackAfter (ds : Datasource) (floor : Timestamp)
    (rows more : List (Row Value)) :
    ((ds.trackAfter rows).absorb floor more).reset = ds.trackAfter (rows ++ more) := by
  rw [Track.absorb_eq_foldl]
  simp only [trackAfter, Track.reset, Coverage.reset, Coverage.last_foldl, samplesOf,
    List.filterMap_append, List.getLast?_append, Option.map_or]

namespace Resampling

/-- What is known between two requests of the rows that were read, if the requests so far have
consumed some of `rows` and were answered with `handed`. -/
structure ReadsAhead (r : Resampling) (d : Descriptor) (rows consumed : List (Row Value))
    (handed : Feed Float) : Prop where
  /-- No row is lost, and none is there twice. -/
  read_eq : ∃ unread, r.input = .ofRows unread ∧ rows = consumed ++ r.lookahead ++ unread
  /-- Of the rows that were consumed, each datasource remembers its last sample. -/
  tracks_eq : r.tracks = d.datasources.map (·.trackAfter consumed)
  consumed_le : ∀ row ∈ consumed, ∃ point ∈ Feed.rowsOf handed, row.timestamp ≤ point.timestamp
  later : ∀ point ∈ (Feed.rowsOf handed).getLast?, ∀ row ∈ r.lookahead,
    point.timestamp < row.timestamp
  /-- The sample may be any of the datasource, so that a row that was awaited once stays so. -/
  awaited : ∀ row ∈ r.lookahead.dropLast, ∃ ds ∈ d.datasources,
    ∃ s ∈ samplesOf ds.source consumed, row.timestamp < s.timestamp + ds.heartbeat

section Run

variable {r : Resampling} {d : Descriptor} {rows consumed : List (Row Value)}
  {handed : Feed Float}

theorem readsAhead_start (d : Descriptor) (resource : String) (start finish : Timestamp)
    (rows : List (Row Value)) :
    (Resampling.start d resource start finish (.ofRows rows)).ReadsAhead d rows [] [] :=
  ⟨⟨rows, rfl, rfl⟩, rfl, by simp, by simp, by simp [Resampling.start]⟩

/-- The cases are those of a request: the walk has come to its end, or a point is handed out. -/
theorem ReadsAhead.pulled (h : r.ReadsAhead d rows consumed handed) (hasc : Row.Ascending rows) :
    (Feed.pulled next? r).ReadsAhead d rows (consumed ++ r.due)
      (handed ++ (r.next?.map Prod.fst).toList) := by
  obtain ⟨⟨unread, hinput, hrows⟩, htracks, hconsumed, hlater, hawaited⟩ := h
  cases hp : r.points.next? with
  | none =>
    have hnone := next?_of_none hp
    simpa [Feed.pulled_of_none hnone, hnone, due_of_none hp] using
      ⟨⟨unread, hinput, hrows⟩, htracks, hconsumed, hlater, hawaited⟩
  | some step =>
    obtain ⟨ceiling, points⟩ := step
    have hholds : r.Holds (r.lookahead ++ unread) := ⟨unread, hinput, rfl⟩
    obtain ⟨point, r', hnext, rfl, htracks', ⟨unread', hinput', hafter⟩, hbound⟩ :=
      next?_due hholds hp
    have hdue := due_of_holds hholds hp
    have htracks_eq : r'.tracks = d.datasources.map (·.trackAfter (consumed ++ r.due)) := by
      rw [htracks', htracks, List.map_map]
      exact List.map_congr_left fun ds _ => ds.reset_absorb_trackAfter _ _ _
    rw [Feed.pulled_of_some hnext, hnext, Option.map_some, Option.toList_some]
    refine ⟨⟨unread', hinput', ?_⟩, htracks_eq, ?_, ?_, ?_⟩
    · rw [hdue, List.append_assoc, hafter, List.append_assoc, Row.upTo_append_after, hrows,
        List.append_assoc]
    · intro row hrow
      simp only [Feed.rowsOf_append, List.mem_append]
      rcases List.mem_append.1 hrow with hmem | hmem
      · obtain ⟨earlier, hearlier, hle⟩ := hconsumed row hmem
        exact ⟨earlier, .inl hearlier, hle⟩
      · exact ⟨point, .inr List.mem_cons_self, Row.le_of_mem_upTo (hdue ▸ hmem)⟩
    · intro last hlast row hrow
      obtain rfl : point = last := by simpa using hlast
      have hleft : Row.Ascending (r.lookahead ++ unread) := by
        rw [hrows, List.append_assoc] at hasc
        exact (List.pairwise_append.1 hasc).2.1
      exact (hleft.mem_after_iff.1 (hafter ▸ List.mem_append_left unread' hrow)).2
    · intro row hrow
      rcases hbound row hrow with hmem | ⟨t, ht, last, hlast, hlt⟩
      · obtain ⟨ds, hds, s, hs, hlt⟩ := hawaited row hmem
        exact ⟨ds, hds, s, List.filterMap_subset _ (List.subset_append_left _ _) hs, hlt⟩
      · rw [htracks_eq] at ht
        obtain ⟨ds, hds, rfl⟩ := List.mem_map.1 ht
        obtain ⟨s, hs, rfl⟩ := Option.map_eq_some_iff.1 hlast
        exact ⟨ds, hds, s, List.mem_of_getLast? hs, hlt⟩

/-- The induction runs over the requests. -/
theorem readsAhead_after (resource : String) (start finish : Timestamp)
    (hasc : Row.Ascending rows) (n : Nat) :
    let r := Resampling.start d resource start finish (.ofRows rows)
    (Feed.after next? n r).ReadsAhead d rows (r.consumed n) (Feed.unfold next? n r) := by
  intro r
  induction n with
  | zero => exact readsAhead_start d resource start finish rows
  | succ n ih =>
    rw [Feed.after_succ, consumed_succ, Feed.unfold_succ]
    exact ih.pulled hasc

/-! ## The common horizon -/

/-- The latest instant, in nanoseconds, up to which a datasource waits for what follows its last
sample, if any of them has one. -/
def horizon? (r : Resampling) : Option Int :=
  (r.tracks.filterMap fun t =>
    t.coverage.last.map fun last => last.nanos + t.datasource.heartbeat.nanos).max?

/-- Whether a row lies at the horizon or behind it, or there is no horizon at all. -/
def isBeyond (r : Resampling) (row : Row Value) : Bool :=
  r.horizon?.all (· ≤ row.timestamp.nanos)

theorem exists_horizon? {t : Track} {last : Timestamp} (ht : t ∈ r.tracks)
    (hlast : t.coverage.last = some last) :
    ∃ horizon ∈ r.horizon?, last.nanos + t.datasource.heartbeat.nanos ≤ horizon := by
  have hmem : last.nanos + t.datasource.heartbeat.nanos ∈ r.tracks.filterMap fun t =>
      t.coverage.last.map fun last => last.nanos + t.datasource.heartbeat.nanos :=
    List.mem_filterMap.2 ⟨t, ht, by rw [hlast, Option.map_some]⟩
  obtain ⟨horizon, hmax⟩ := Option.isSome_iff_exists.1 (List.isSome_max?_of_mem hmem)
  exact ⟨horizon, hmax, (List.max?_eq_some_iff.1 hmax).2 _ hmem⟩

/-- The sample that a row was awaited behind need not be the last one any more, but the last one is
not earlier. -/
theorem ReadsAhead.lt_horizon (h : r.ReadsAhead d rows consumed handed)
    (hrows : ∀ row ∈ rows, row.Stamped) (hasc : Row.Ascending rows)
    (hfits : ∀ ds ∈ d.datasources, ∀ s ∈ samplesOf ds.source rows,
      s.timestamp.AddFits ds.heartbeat) :
    ∀ row ∈ r.lookahead.dropLast, ∃ horizon ∈ r.horizon?, row.timestamp.nanos < horizon := by
  obtain ⟨unread, -, rfl⟩ := h.read_eq
  rw [List.append_assoc] at hrows hasc hfits
  intro row hrow
  obtain ⟨ds, hds, s, hs, hlt⟩ := h.awaited row hrow
  obtain ⟨last, hlast⟩ :=
    Option.isSome_iff_exists.1 (List.getLast?_isSome.2 (List.ne_nil_of_mem hs))
  have hsorted := pairwise_samplesOf ds.source
    (fun row hmem => hrows row (List.mem_append_left _ hmem)) (List.pairwise_append.1 hasc).1
  have hle : s.timestamp.nanos ≤ last.timestamp.nanos := by
    rcases eq_or_rel_of_getLast? hsorted hlast hs with rfl | hlater
    · exact le_rfl
    · exact Int.le_of_lt hlater
  have hend : (ds.trackAfter consumed).coverage.last = some last.timestamp := by
    rw [Datasource.trackAfter, hlast, Option.map_some]
  have htrack : ds.trackAfter consumed ∈ r.tracks := h.tracks_eq ▸ List.mem_map_of_mem hds
  obtain ⟨horizon, hhorizon, hreach⟩ := exists_horizon? htrack hend
  refine ⟨horizon, hhorizon, ?_⟩
  calc row.timestamp.nanos
    _ < (s.timestamp + ds.heartbeat).nanos := hlt
    _ = s.timestamp.nanos + ds.heartbeat.nanos :=
      Timestamp.nanos_add (hfits ds hds s
        (List.filterMap_subset _ (List.subset_append_left _ _) hs))
    _ ≤ last.timestamp.nanos + ds.heartbeat.nanos := by omega
    _ ≤ horizon := hreach

theorem length_filter_isBeyond
    (h : ∀ row ∈ r.lookahead.dropLast, ∃ horizon ∈ r.horizon?, row.timestamp.nanos < horizon) :
    (r.lookahead.filter r.isBeyond).length ≤ 1 := by
  rcases List.eq_nil_or_concat r.lookahead with hnil | ⟨init, last, hsnoc⟩
  · simp [hnil]
  · rw [List.concat_eq_append] at hsnoc
    rw [hsnoc, List.dropLast_concat] at h
    have hnone : init.filter r.isBeyond = [] := by
      refine List.filter_eq_nil_iff.2 fun row hrow hbeyond => ?_
      obtain ⟨horizon, hhorizon, hlt⟩ := h row hrow
      rw [isBeyond, Option.mem_def.1 hhorizon] at hbeyond
      exact Int.not_le.2 hlt (of_decide_eq_true hbeyond)
    rw [hsnoc, List.filter_append, hnone, List.nil_append]
    exact List.length_filter_le _ _

end Run

/-- Whatever the order in which datasources search, the rows ahead are kept in the order of the
input, and all but the last of them lie before the common horizon. -/
theorem readsAhead_within_horizon {d : Descriptor} {rows : List (Row Value)} (resource : String)
    (start finish : Timestamp) (hrows : ∀ row ∈ rows, row.Stamped) (hasc : Row.Ascending rows)
    (hfits : ∀ ds ∈ d.datasources, ∀ s ∈ samplesOf ds.source rows,
      s.timestamp.AddFits ds.heartbeat) (n : Nat) :
    let before := Resampling.start d resource start finish (.ofRows rows)
    let r := Feed.after next? n before
    r.ReadsAhead d rows (before.consumed n) (Feed.unfold next? n before) ∧
      (∀ row ∈ r.lookahead.dropLast, ∃ horizon ∈ r.horizon?, row.timestamp.nanos < horizon) ∧
      (r.lookahead.filter r.isBeyond).length ≤ 1 := by
  intro before r
  have hreads := readsAhead_after (d := d) resource start finish hasc n
  have hbound := hreads.lt_horizon hrows hasc hfits
  exact ⟨hreads, hbound, length_filter_isBeyond hbound⟩

end Resampling

/-- A datasource that waits two seconds for its samples, and one that waits three. -/
def Descriptor.patient : Descriptor :=
  { Descriptor.load with
    datasources := Descriptor.load.datasources ++
      [⟨"free", "mem", .ofTicks 3 .seconds, defaultXff, .max⟩] }

/-- Both metrics come once and then no more, while another one keeps coming. -/
def silentRows : List (Row Value) :=
  (Row.gauge .epoch "host" "cpu" 5).insert ⟨.epoch, "host", "mem", .gauge 7, none⟩ ::
    [700, 1400, 2100, 2800, 3500, 4200].map fun n : Int =>
      .gauge (.ofTicks n .milliseconds) "host" "disk" 1

/-- The first search ends with the row at 2.1 s, and the second one reads on from there. -/
theorem Resampling.readsAhead_within_horizon_silent :
    let before := Resampling.start .patient "host" (.ofTicks 1 .seconds) (.ofTicks 1 .seconds)
      (.ofRows silentRows)
    let r := Feed.after next? 1 before
    (before.consumed 1).map (·.timestamp.nanos) = [0, 700000000] ∧
      r.lookahead.map (·.timestamp.nanos) = [1400000000, 2100000000, 2800000000, 3500000000] ∧
      r.horizon? = some 3000000000 ∧
      (∀ row ∈ r.lookahead.dropLast, row.timestamp.nanos < 3000000000) ∧
      (r.lookahead.filter r.isBeyond).length ≤ 1 := by
  intro before r
  have hrows : ∀ row ∈ silentRows, row.Stamped := by decide
  have hasc : Row.Ascending silentRows := by decide
  have hfits : ∀ ds ∈ Descriptor.patient.datasources, ∀ s ∈ samplesOf ds.source silentRows,
      s.timestamp.AddFits ds.heartbeat := by decide
  have hhorizon : r.horizon? = some 3000000000 := by decide +kernel
  obtain ⟨-, hbound, hone⟩ := readsAhead_within_horizon "host" (.ofTicks 1 .seconds)
    (.ofTicks 1 .seconds) hrows hasc hfits 1
  refine ⟨by decide +kernel, by decide +kernel, hhorizon, fun row hrow => ?_, hone⟩
  obtain ⟨_, hsome, hlt⟩ := hbound row hrow
  obtain rfl := Option.some.inj (hhorizon.symm.trans hsome)
  exact hlt

end Telemetry
