import Mathlib.Data.List.Forall2
import Telemetry.Feed.Buckets
import Telemetry.Proofs.Descriptor
import Telemetry.Proofs.Following
import Telemetry.Proofs.Lattice.Covering
import Telemetry.Proofs.Row

/-!
# Buckets of points without errors

What a bucket holds is the points that lie in its window and nothing else: its values are reset when
it is filled and its attributes when it is emptied. `Descriptor.consolidated` makes a row of one
window, and `bucketRows` takes the windows out of the points one after the other.
-/

namespace Telemetry

namespace Bucket

variable {b : Bucket} {rows : List (Row Float)}

def addAll (b : Bucket) (rows : List (Row Float)) : Bucket :=
  rows.foldl add b

theorem add_eq (b : Bucket) (row : Row Float) :
    b.add row =
      { b with
        values := b.values ++ [row.valueOf b.datasource.label]
        attributes := Attributes.merge? b.attributes
          ((row.get? b.datasource.label).bind (·.attributes)) } := by
  unfold add Row.valueOf
  cases row.get? b.datasource.label <;> rfl

theorem addAll_eq (b : Bucket) (rows : List (Row Float)) :
    b.addAll rows =
      { b with
        values := b.values ++ rows.map (·.valueOf b.datasource.label)
        attributes := (rows.map fun row =>
          (row.get? b.datasource.label).bind (·.attributes)).foldl
            Attributes.merge? b.attributes } := by
  induction rows generalizing b with
  | nil => simp [addAll]
  | cons row rest ih =>
    have hadd : b.addAll (row :: rest) = (b.add row).addAll rest := rfl
    rw [hadd, ih, add_eq, List.append_assoc]
    rfl

@[simp] theorem datasource_addAll : (b.addAll rows).datasource = b.datasource := by
  rw [addAll_eq]

end Bucket

/-- The empty buckets of a descriptor. -/
def Descriptor.buckets (d : Descriptor) : List Bucket :=
  d.datasources.map (⟨·, [], none⟩)

/-- The row that the points of one bucket amount to. -/
def Descriptor.consolidated (d : Descriptor) (resource : String) (pointsPerBucket : Float)
    (rows : List (Row Float)) (ceiling : Timestamp) : Row Float :=
  (Row.empty ceiling resource).insertAll
    (d.buckets.map fun b => (b.addAll rows).measurement resource ceiling pointsPerBucket)

/-- The row that is made of the datasources' buckets, each filled in the same way. -/
def Descriptor.bucketRow (d : Descriptor) (resource : String) (pointsPerBucket : Float)
    (filled : Bucket → Bucket) (ceiling : Timestamp) : Row Float :=
  (Row.empty ceiling resource).insertAll
    (d.buckets.map fun b => (filled b).measurement resource ceiling pointsPerBucket)

section

variable {d : Descriptor} {filled : Bucket → Bucket}

theorem Descriptor.bucketRow_shaped (hd : (d.datasources.map (·.label)).Nodup)
    (hfilled : ∀ b, (filled b).datasource = b.datasource) (resource : String)
    (pointsPerBucket : Float) (c : Timestamp) :
    (d.bucketRow resource pointsPerBucket filled c).Shaped resource c
      (d.datasources.map (·.label)) := by
  refine Row.shaped_insertAll_empty ?_ hd ?_
  · simp [Descriptor.buckets, Bucket.measurement, hfilled]
  · simp [Descriptor.buckets, Bucket.measurement]

theorem Descriptor.get?_bucketRow {ds : Datasource} (hd : (d.datasources.map (·.label)).Nodup)
    (hds : ds ∈ d.datasources) (hfilled : ∀ b, (filled b).datasource = b.datasource)
    (resource : String) (pointsPerBucket : Float) (c : Timestamp) :
    (d.bucketRow resource pointsPerBucket filled c).get? ds.label =
      some ((filled ⟨ds, [], none⟩).measurement resource c pointsPerBucket) := by
  let measure (b : Bucket) : Measurement := (filled b).measurement resource c pointsPerBucket
  have hnodup : ((d.buckets.map measure).map (·.name)).Nodup := by
    simpa [measure, buckets, Bucket.measurement, Function.comp_def, hfilled] using hd
  have hmem : measure ⟨ds, [], none⟩ ∈
      (d.bucketRow resource pointsPerBucket filled c).readings := by
    rw [bucketRow, Row.readings_insertAll_empty c resource hnodup]
    exact List.mem_map_of_mem (List.mem_map_of_mem hds)
  have hname : (measure ⟨ds, [], none⟩).name = ds.label :=
    congrArg Datasource.label (hfilled _)
  rw [← hname]
  exact Row.get?_name hmem

end

/-- A consolidated row holds one measurement of each datasource. -/
theorem Descriptor.consolidated_shaped {d : Descriptor}
    (hd : (d.datasources.map (·.label)).Nodup) (resource : String) (pointsPerBucket : Float)
    (rows : List (Row Float)) (c : Timestamp) :
    (d.consolidated resource pointsPerBucket rows c).Shaped resource c
      (d.datasources.map (·.label)) :=
  bucketRow_shaped hd (fun _ => Bucket.datasource_addAll) resource pointsPerBucket c

theorem Descriptor.get?_consolidated {d : Descriptor} {ds : Datasource}
    (hd : (d.datasources.map (·.label)).Nodup) (hds : ds ∈ d.datasources) (resource : String)
    (pointsPerBucket : Float) (rows : List (Row Float)) (c : Timestamp) :
    (d.consolidated resource pointsPerBucket rows c).get? ds.label =
      some (((⟨ds, [], none⟩ : Bucket).addAll rows).measurement resource c pointsPerBucket) :=
  get?_bucketRow hd hds (fun _ => Bucket.datasource_addAll) resource pointsPerBucket c

/-- The rows of the buckets that end with the given instants. -/
def bucketRows (d : Descriptor) (resource : String) (pointsPerBucket : Float) :
    List Timestamp → List (Row Float) → List (Row Float)
  | [], _ => []
  | ceiling :: rest, rows =>
    d.consolidated resource pointsPerBucket (Row.upTo ceiling rows) ceiling ::
      bucketRows d resource pointsPerBucket rest (Row.after ceiling rows)

theorem forall₂_bucketRows (d : Descriptor) (resource : String) (pointsPerBucket : Float)
    (cs : List Timestamp) (rows : List (Row Float)) :
    List.Forall₂ (fun c row => ∃ points, row = d.consolidated resource pointsPerBucket points c)
      cs (bucketRows d resource pointsPerBucket cs rows) := by
  induction cs generalizing rows with
  | nil => exact .nil
  | cons c rest ih => exact .cons ⟨_, rfl⟩ (ih _)

namespace Bucketing

variable {b : Bucketing} {d : Descriptor} {rows : List (Row Float)} {ceiling : Timestamp}
  {points : Lattice}

theorem skip_ofRows (limit : Timestamp) (rows : List (Row Float)) :
    skip limit (.ofRows rows) = (none, .ofRows (Row.after limit rows)) := by
  induction rows with
  | nil => rfl
  | cons row rest ih =>
    rw [Feed.ofRows, List.map_cons, skip]
    by_cases hle : row.timestamp ≤ limit
    · rw [if_pos hle, ← Feed.ofRows, ih, Row.after_cons_of_le hle]
    · simp [hle, Feed.ofRows]

theorem fill_ofRows (ceiling : Timestamp) (buckets : List Bucket) (rows : List (Row Float)) :
    fill ceiling buckets (.ofRows rows) =
      (buckets.map (·.addAll (Row.upTo ceiling rows)), none,
        .ofRows (Row.after ceiling rows)) := by
  induction rows generalizing buckets with
  | nil => simp [Feed.ofRows, fill, Bucket.addAll]
  | cons row rest ih =>
    rw [Feed.ofRows, List.map_cons, fill]
    by_cases hle : row.timestamp ≤ ceiling
    · rw [if_pos hle, ← Feed.ofRows, ih]
      simp [hle, Bucket.addAll, Function.comp_def]
    · simp [hle, Feed.ofRows, Bucket.addAll]

/-- The rows before the first bucket are gone, and apart from values the buckets are empty. -/
structure Holds (b : Bucketing) (d : Descriptor) (rows : List (Row Float)) : Prop where
  primed : b.primed = true
  input : b.input = .ofRows rows
  buckets : b.buckets.map ({ · with values := [] }) = d.buckets

theorem next?_eq (h : b.Holds d rows) (hp : b.points.next? = some (ceiling, points)) : ∃ b',
    b.next? = some (.ok (d.consolidated b.resource b.pointsPerBucket (Row.upTo ceiling rows)
      ceiling), b') ∧
    b'.Holds d (Row.after ceiling rows) ∧ b'.points = points ∧
    b'.resource = b.resource ∧ b'.pointsPerBucket = b.pointsPerBucket := by
  obtain ⟨hprimed, hinput, hbuckets⟩ := h
  let filled := d.buckets.map (·.addAll (Row.upTo ceiling rows))
  refine ⟨{ b with
    points
    buckets := filled.map ({ · with attributes := none })
    input := .ofRows (Row.after ceiling rows) }, ?_, ⟨hprimed, rfl, ?_⟩, rfl, rfl, rfl⟩
  · simp only [next?, hp, Option.map_some, prime, hprimed, if_true, hbuckets, hinput, fill_ofRows]
    simp only [Descriptor.consolidated, List.map_map, Function.comp_def, filled]
  · simp [filled, Descriptor.buckets, Function.comp_def]

theorem next?_of_none (h : b.points.next? = none) : b.next? = none := by
  rw [next?, h, Option.map_none]

/-- What a state holds: the rows that are still to be gathered, and empty buckets. -/
def HoldsAll (d : Descriptor) (resource : String) (pointsPerBucket : Float) (b : Bucketing)
    (rows : List (Row Float)) : Prop :=
  b.resource = resource ∧ b.pointsPerBucket = pointsPerBucket ∧ b.Holds d rows

/-- Buckets follow the walk of their filling. -/
theorem follows_next? (d : Descriptor) (resource : String) (pointsPerBucket : Float) :
    Feed.FollowsWalk next? Bucketing.points (HoldsAll d resource pointsPerBucket)
      (bucketRows d resource pointsPerBucket) where
  nil _ := rfl
  ended _ := next?_of_none
  step := by
    rintro b rows ceiling points ⟨rfl, rfl, h⟩ hp
    obtain ⟨b', hnext, hholds, hpoints, hresource, hcount⟩ := next?_eq h hp
    exact ⟨_, b', _, hnext, hpoints, ⟨hresource, hcount, hholds⟩, fun cs => rfl⟩

/-- The first bucket leaves behind what lies before it. -/
theorem next?_of_not_primed (h : b.primed = false) (hinput : b.input = .ofRows rows)
    (hp : b.points.next? = some (ceiling, points)) :
    b.next? = next? { b with
      primed := true
      input := .ofRows (Row.after (ceiling - b.resolution) rows) } := by
  simp only [next?, hp, Option.map_some, prime, h, hinput, skip_ofRows]
  rfl

end Bucketing

namespace Feed

section Congr

variable {α σ : Type} {next? : σ → Option (Except QueryError (Row α) × σ)} {s s' : σ}

theorem unfold_congr (h : next? s = next? s') (n : Nat) :
    unfold next? n s = unfold next? n s' := by
  cases n with
  | zero => rfl
  | succ n => rw [unfold, unfold, h]

theorem run_congr (h : next? s = next? s') (n : Nat) : run next? n s = run next? n s' := by
  cases n with
  | zero => rw [run, run, h]
  | succ n => rw [run, run, h]

end Congr

variable (d : Descriptor) (resource : String) (start finish : Timestamp) (resolution : Duration)
  (rows : List (Row Float))

/-- The filling of buckets once the rows before the first of them have been left behind. -/
def primed : Bucketing :=
  { Bucketing.start d resource start finish resolution [] with
    primed := true
    input := .ofRows (Row.after (start.floor resolution - resolution) rows) }

theorem next?_primed :
    (Bucketing.start d resource start finish resolution (.ofRows rows)).next? =
      (primed d resource start finish resolution rows).next? := by
  let b := Bucketing.start d resource start finish resolution (.ofRows rows)
  change b.next? = _
  cases hp : b.points.next? with
  | none =>
    have hprimed : (primed d resource start finish resolution rows).points.next? = none := hp
    rw [Bucketing.next?_of_none hp, Bucketing.next?_of_none hprimed]
  | some step =>
    have hfirst : step.1 = start.floor resolution := by
      obtain ⟨c, hc, rfl⟩ := Option.map_eq_some_iff.1 hp
      exact (Option.some.inj (Option.ite_none_right_eq_some.1 hc).2).symm
    rw [Bucketing.next?_of_not_primed rfl rfl hp, hfirst]
    rfl

theorem holdsAll_primed :
    Bucketing.HoldsAll d resource (resolution.ratio d.step)
      (primed d resource start finish resolution rows)
      (Row.after (start.floor resolution - resolution) rows) := by
  refine ⟨rfl, rfl, rfl, rfl, ?_⟩
  simp [primed, Bucketing.start, Descriptor.buckets, Function.comp_def]

theorem buckets_ofRows :
    buckets d resource start finish resolution (.ofRows rows) =
      .ofRows (bucketRows d resource (resolution.ratio d.step)
        (Lattice.covering start finish resolution).toList
        (Row.after (start.floor resolution - resolution) rows)) := by
  rw [buckets, unfold_congr (next?_primed d resource start finish resolution rows)]
  exact (Bucketing.follows_next? d resource _).unfold_eq
    (holdsAll_primed d resource start finish resolution rows) _

theorem checkedBuckets_ofRows (n : Nat) :
    checkedBuckets n d resource start finish resolution (.ofRows rows) =
      .ofRows (bucketRows d resource (resolution.ratio d.step)
        ((Lattice.covering start finish resolution).take n)
        (Row.after (start.floor resolution - resolution) rows)) ++
      goesOn (Lattice.covering start finish resolution) n := by
  rw [checkedBuckets, run_congr (next?_primed d resource start finish resolution rows)]
  exact (Bucketing.follows_next? d resource _).run_eq
    (holdsAll_primed d resource start finish resolution rows) n

end Feed

end Telemetry
