import Telemetry.Feed.Points
import Telemetry.Proofs.Following
import Telemetry.Proofs.Lattice.Covering
import Telemetry.Proofs.Row

/-!
# Primary points of rows without errors

As long as no error is read, how far the rows were read ahead has no influence: what counts are the
rows that are still to be taken into account, whether they were read or not. Each track takes its
own samples out of them and sees nothing of the other tracks. `Track.close` is what becomes of one
track in one bucket, and `pointRows` makes the points of a whole walk from it.
-/

namespace Telemetry

/-- What follows the last sample of a metric, told by rows that are all at hand. -/
def CarryOver.among (metric : String) (horizon : Timestamp) (rows : List (Row Value)) : CarryOver :=
  (rows.findSome? (Resampling.judge? metric horizon)).getD .ended

namespace Track

/-- Takes rows into account that are not later than the end of the bucket. -/
def absorb (t : Track) (floor : Timestamp) (rows : List (Row Value)) : Track :=
  rows.foldl (fun t row => t.advance floor row) t

@[simp] theorem absorb_nil (t : Track) (floor : Timestamp) : t.absorb floor [] = t := rfl

@[simp] theorem absorb_cons (t : Track) (floor : Timestamp) (row : Row Value)
    (rows : List (Row Value)) :
    t.absorb floor (row :: rows) = (t.advance floor row).absorb floor rows := rfl

/-- Completes the bucket, where the last sample falls short of its end. -/
def complete (t : Track) (floor ceiling : Timestamp) (later : List (Row Value)) : Track :=
  match t.coverage.last with
  | none => t
  | some last =>
    if ceiling ≤ last then t
    else
      Resampling.carry t floor ceiling last
        (.among t.datasource.source (last + t.datasource.heartbeat) later)

/-- The track at the end of the bucket, if `rows` are the rows that were not yet taken into
account. -/
def close (t : Track) (floor ceiling : Timestamp) (rows : List (Row Value)) : Track :=
  (t.absorb floor (Row.upTo ceiling rows)).complete floor ceiling
    (Row.after ceiling rows)

end Track

/-- The points at the given instants, one step before each of which its bucket begins. -/
def pointRows (resource : String) (step : Duration) :
    List Timestamp → List Track → List (Row Value) → List (Row Float)
  | [], _, _ => []
  | ceiling :: rest, tracks, rows =>
    let closed := tracks.map (·.close (ceiling - step) ceiling rows)
    pointOf resource ceiling closed ::
      pointRows resource step rest (closed.map Track.reset)
        (Row.after ceiling rows)

namespace Resampling

variable {r : Resampling} {rows ahead unread : List (Row Value)} {tracks : List Track}
  {floor ceiling : Timestamp}

/-- The rows that are still to be taken into account; some of them may have been read ahead, and
none of them is an error. -/
def Holds (r : Resampling) (rows : List (Row Value)) : Prop :=
  ∃ unread, r.input = Feed.ofRows unread ∧ r.lookahead ++ unread = rows

theorem absorbInput_eq (floor ceiling : Timestamp) (tracks : List Track)
    (rows : List (Row Value)) : ∃ ahead unread,
    absorbInput floor ceiling tracks (Feed.ofRows rows) =
      (tracks.map (·.absorb floor (Row.upTo ceiling rows)), none, ahead,
        Feed.ofRows unread) ∧
    ahead ++ unread = Row.after ceiling rows := by
  induction rows generalizing tracks with
  | nil => exact ⟨[], [], by simp [Feed.ofRows, absorbInput], rfl⟩
  | cons row rest ih =>
    by_cases hle : row.timestamp ≤ ceiling
    · obtain ⟨ahead, unread, heq, hrows⟩ := ih (advanceAll tracks floor row)
      refine ⟨ahead, unread, ?_, by simpa [hle] using hrows⟩
      rw [Feed.ofRows, List.map_cons, absorbInput, if_pos hle]
      refine heq.trans ?_
      simp [hle, advanceAll]
    · refine ⟨[row], rest, ?_, by simp [hle]⟩
      rw [Feed.ofRows, List.map_cons, absorbInput, if_neg hle]
      simp [hle, Feed.ofRows]

theorem absorb_of_le {row : Row Value} (hr : r.lookahead = row :: rows)
    (hle : row.timestamp ≤ ceiling) :
    r.absorb floor ceiling =
      { r with
        tracks := advanceAll r.tracks floor row
        lookahead := rows }.absorb floor ceiling := by
  simp [absorb, absorbAhead, hr, hle]

/-- The induction runs over the rows read ahead; after them, rows are read from the input. -/
theorem absorb_eq (h : r.Holds rows) (floor ceiling : Timestamp) : ∃ r',
    r.absorb floor ceiling = (none, r') ∧
    r'.tracks = r.tracks.map (·.absorb floor (Row.upTo ceiling rows)) ∧
    r'.Holds (Row.after ceiling rows) ∧
    r'.points = r.points ∧ r'.resource = r.resource := by
  obtain ⟨unread, hinput, hrows⟩ := h
  generalize hahead : r.lookahead = ahead at hrows
  induction ahead generalizing r rows with
  | nil =>
    obtain rfl : unread = rows := hrows
    obtain ⟨ahead, unread', heq, hdrop⟩ := absorbInput_eq floor ceiling r.tracks unread
    refine ⟨⟨r.resource, r.points, _, ahead, .ofRows unread'⟩, ?_, rfl, ⟨unread', rfl, hdrop⟩,
      rfl, rfl⟩
    simp only [absorb, hahead, absorbAhead, hinput, heq]
  | cons row rest ih =>
    subst hrows
    by_cases hle : row.timestamp ≤ ceiling
    · obtain ⟨r', heq, htracks, hholds, hpoints, hresource⟩ := ih (r := { r with
        tracks := advanceAll r.tracks floor row
        lookahead := rest }) hinput rfl rfl
      refine ⟨r', (absorb_of_le hahead hle).trans heq, ?_, by simpa [hle] using hholds, hpoints,
        hresource⟩
      simpa [hle, advanceAll, Function.comp_def] using htracks
    · refine ⟨r, ?_, by simp [hle], ⟨unread, hinput, by simp [hahead, hle]⟩, rfl, rfl⟩
      simp only [absorb, hahead, absorbAhead, if_neg hle]
      rw [← hahead]

/-! ## Completing the bucket -/

theorem seekInput_eq (metric : String) (horizon : Timestamp) (rows : List (Row Value)) :
    ∃ ahead unread,
    seekInput metric horizon (Feed.ofRows rows) =
      (.ok (.among metric horizon rows), ahead, Feed.ofRows unread) ∧
    ahead ++ unread = rows := by
  induction rows with
  | nil => exact ⟨[], [], rfl, rfl⟩
  | cons row rest ih =>
    rw [Feed.ofRows, List.map_cons, seekInput]
    cases hjudge : judge? metric horizon row with
    | some c =>
      exact ⟨[row], rest, by simp [CarryOver.among, hjudge, Feed.ofRows], rfl⟩
    | none =>
      obtain ⟨ahead, unread, heq, hrows⟩ := ih
      rw [Feed.ofRows] at heq
      exact ⟨row :: ahead, unread, by simp [heq, CarryOver.among, hjudge], by simp [hrows]⟩

theorem seek_eq (metric : String) (horizon : Timestamp) (ahead unread : List (Row Value)) :
    ∃ ahead' unread',
    seek metric horizon ahead (Feed.ofRows unread) =
      (.ok (.among metric horizon (ahead ++ unread)), ahead', Feed.ofRows unread') ∧
    ahead' ++ unread' = ahead ++ unread := by
  rw [seek]
  cases hfind : ahead.findSome? (judge? metric horizon) with
  | some c => exact ⟨ahead, unread, by simp [CarryOver.among, List.findSome?_append, hfind], rfl⟩
  | none =>
    obtain ⟨more, unread', heq, hrows⟩ := seekInput_eq metric horizon unread
    refine ⟨ahead ++ more, unread', ?_, by rw [List.append_assoc, hrows]⟩
    simp [heq, CarryOver.among, List.findSome?_append, hfind]

/-- Each track is completed from the same rows, whatever the tracks before it have read ahead. -/
theorem complete_eq (floor ceiling : Timestamp) (tracks : List Track)
    (ahead unread : List (Row Value)) : ∃ ahead' unread',
    complete floor ceiling tracks ahead (Feed.ofRows unread) =
      (tracks.map (·.complete floor ceiling (ahead ++ unread)), none, ahead',
        Feed.ofRows unread') ∧
    ahead' ++ unread' = ahead ++ unread := by
  induction tracks generalizing ahead unread with
  | nil => exact ⟨ahead, unread, rfl, rfl⟩
  | cons t rest ih =>
    rw [complete]
    cases hlast : t.coverage.last with
    | none =>
      obtain ⟨ahead', unread', heq, hrows⟩ := ih ahead unread
      exact ⟨ahead', unread', by simp [heq, Track.complete, hlast], hrows⟩
    | some last =>
      by_cases hle : ceiling ≤ last
      · obtain ⟨ahead', unread', heq, hrows⟩ := ih ahead unread
        exact ⟨ahead', unread', by simp [heq, Track.complete, hlast, hle], hrows⟩
      · obtain ⟨more, left, hseek, hleft⟩ := seek_eq t.datasource.source
          (last + t.datasource.heartbeat) ahead unread
        obtain ⟨ahead', unread', heq, hrows⟩ := ih more left
        refine ⟨ahead', unread', ?_, hrows.trans hleft⟩
        simp [hseek, heq, Track.complete, hlast, hle, hleft]

/-! ## Points -/

theorem close?_of_none (h : r.points.next? = none) : r.close? = none := by
  rw [close?, h, Option.map_none]

theorem next?_of_none (h : r.points.next? = none) : r.next? = none := by
  rw [next?, close?_of_none h, Option.map_none]

theorem next?_of_close? {closed : Except QueryError Closing} {r' : Resampling}
    (h : r.close? = some (closed, r')) : r.next? = some (closed.map (·.point r.resource), r') := by
  rw [next?, h, Option.map_some]

theorem close?_eq {points : Lattice} (h : r.Holds rows)
    (hp : r.points.next? = some (ceiling, points)) : ∃ r',
    r.close? = some (.ok ⟨ceiling,
      r.tracks.map (·.close (ceiling - points.interval) ceiling rows)⟩, r') ∧
    r'.tracks =
      (r.tracks.map (·.close (ceiling - points.interval) ceiling rows)).map Track.reset ∧
    r'.Holds (Row.after ceiling rows) ∧
    r'.points = points ∧ r'.resource = r.resource := by
  obtain ⟨u, habsorb, htracks, ⟨unread, hinput, hrows⟩, hpoints, hresource⟩ :=
    absorb_eq (r := { r with points }) h (ceiling - points.interval) ceiling
  obtain ⟨ahead, unread', hcomplete, hleft⟩ := complete_eq (ceiling - points.interval) ceiling
    u.tracks u.lookahead unread
  refine ⟨⟨r.resource, points, _, ahead, .ofRows unread'⟩, ?_, rfl,
    ⟨unread', rfl, hleft.trans hrows⟩, rfl, rfl⟩
  rw [htracks, hrows, List.map_map] at hcomplete
  simp only [close?, hp, Option.map_some, habsorb, hinput, htracks, hcomplete, hpoints, hresource]
  rfl

/-- What a state holds: the tracks so far, and the rows that are still to be taken into account. -/
def HoldsAll (resource : String) (step : Duration) (r : Resampling)
    (held : List Track × List (Row Value)) : Prop :=
  r.resource = resource ∧ r.points.interval = step ∧ r.tracks = held.1 ∧ r.Holds held.2

/-- Points follow the walk of the making of points. -/
theorem follows_next? (resource : String) (step : Duration) :
    Feed.FollowsWalk next? points (HoldsAll resource step) fun cs held =>
      pointRows resource step cs held.1 held.2 where
  nil _ := rfl
  ended _ := next?_of_none
  step := by
    rintro r ⟨tracks, rows⟩ ceiling points ⟨rfl, rfl, rfl, h⟩ hp
    obtain ⟨r', hclose, htracks, hholds, rfl, hresource⟩ := close?_eq h hp
    have hinterval := Lattice.interval_of_next? hp
    refine ⟨_, r', (_, Row.after ceiling rows), next?_of_close? hclose, rfl,
      ⟨hresource, hinterval, htracks, hholds⟩, ?_⟩
    intro cs
    rw [← hinterval]
    rfl

end Resampling

/-- The tracks of a descriptor before any sample. -/
def Descriptor.tracks (d : Descriptor) : List Track :=
  d.datasources.map (⟨·, {}⟩)

theorem Feed.points_ofRows (d : Descriptor) (resource : String) (start finish : Timestamp)
    (rows : List (Row Value)) :
    Feed.points d resource start finish (.ofRows rows) =
      .ofRows (pointRows resource d.step (Lattice.covering start finish d.step).toList d.tracks
        rows) :=
  (Resampling.follows_next? resource d.step).unfold_eq (a := (d.tracks, rows))
    ⟨rfl, rfl, rfl, rows, rfl, rfl⟩ _

end Telemetry
