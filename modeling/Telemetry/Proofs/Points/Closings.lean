import Telemetry.Proofs.Points.Run

/-!
# Buckets at their end

What a point shows is less than what its bucket was credited with. So a run is also told by the
buckets that it closes: `Feed.closings` takes from each state of the run the tracks as the point is
made of them, before they are reset, and the points are the points of these closings.
-/

namespace Telemetry

/-- What a datasource is credited with. -/
def Closing.coverage? (cl : Closing) (label : String) : Option Coverage :=
  (cl.tracks.find? (·.datasource.label = label)).map (·.coverage)

namespace Resampling

/-- The bucket that is closed for the next point, if no error is met on the way. -/
def closing? (r : Resampling) : Option Closing :=
  r.close?.bind fun (closed, _) => closed.toOption

/-- The buckets that are closed on at most `n` requests. -/
def closings : Nat → Resampling → List Closing
  | 0, _ => []
  | n + 1, r =>
    match r.next? with
    | none => []
    | some (_, r') => r.closing?.toList ++ closings n r'

end Resampling

/-- The buckets that are closed while points are made over a range. -/
def Feed.closings (d : Descriptor) (resource : String) (start finish : Timestamp)
    (input : Feed Value) : List Closing :=
  let r := Resampling.start d resource start finish input
  r.closings r.points.count

/-- The buckets that end with the given instants, one step before each of which they begin. -/
def closeAll (step : Duration) :
    List Timestamp → List Track → List (Row Value) → List Closing
  | [], _, _ => []
  | ceiling :: rest, tracks, rows =>
    let closed := tracks.map (·.close (ceiling - step) ceiling rows)
    ⟨ceiling, closed⟩ :: closeAll step rest (closed.map Track.reset) (Row.after ceiling rows)

theorem pointRows_eq (resource : String) (step : Duration) (cs : List Timestamp)
    (tracks : List Track) (rows : List (Row Value)) :
    pointRows resource step cs tracks rows =
      (closeAll step cs tracks rows).map (·.point resource) := by
  induction cs generalizing tracks rows with
  | nil => rfl
  | cons c rest ih => rw [pointRows, closeAll, List.map_cons, ih, Closing.point]

namespace Resampling

variable {r : Resampling} {rows : List (Row Value)} {ceiling : Timestamp} {points : Lattice}

theorem closing?_of_close? {cl : Closing} {r' : Resampling} (h : r.close? = some (.ok cl, r')) :
    r.closing? = some cl := by
  rw [closing?, h]
  rfl

theorem closings_eq (h : r.Holds rows) (n : Nat) :
    r.closings n = closeAll r.points.interval (r.points.take n) r.tracks rows := by
  induction n generalizing r rows with
  | zero => rfl
  | succ n ih =>
    cases hp : r.points.next? with
    | none => simp [closings, next?_of_none hp, Lattice.take, hp, closeAll]
    | some step =>
      obtain ⟨ceiling, points⟩ := step
      obtain ⟨r', hclose, htracks, hholds, hpoints, -⟩ := close?_eq h hp
      have hinterval := Lattice.interval_of_next? hp
      rw [closings, next?_of_close? hclose, closing?_of_close? hclose, Lattice.take, hp]
      simp only [Option.toList_some, List.singleton_append, closeAll, ih hholds, htracks, hpoints,
        hinterval]

end Resampling

theorem Feed.closings_ofRows (d : Descriptor) (resource : String) (start finish : Timestamp)
    (rows : List (Row Value)) :
    Feed.closings d resource start finish (.ofRows rows) =
      closeAll d.step (Lattice.covering start finish d.step).toList d.tracks rows :=
  Resampling.closings_eq (r := .start d resource start finish (.ofRows rows)) ⟨rows, rfl, rfl⟩ _

/-- The points that are handed out are those of the buckets that are closed. -/
theorem Feed.points_eq_closings (d : Descriptor) (resource : String) (start finish : Timestamp)
    (rows : List (Row Value)) :
    Feed.points d resource start finish (.ofRows rows) =
      .ofRows ((Feed.closings d resource start finish (.ofRows rows)).map (·.point resource)) := by
  rw [Feed.points_ofRows, Feed.closings_ofRows, pointRows_eq]

end Telemetry
